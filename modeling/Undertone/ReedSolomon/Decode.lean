import Undertone.ReedSolomon.Roots

/-!
# The decoder

For a received word at distance at most four from a code word the syndromes are weighted power sums over the error
positions. The Berlekamp iteration ends with their locator, the search lists its roots, and the evaluator gives the
error at each of them (`evaluatorCoeff_spec`, `numerator_spec`, `denominator_spec`), so that the corrected word is the
code word (`decode_corrects`).
-/

namespace Undertone

open CountedLoop Recurrence Locator

namespace ReedSolomon

/-! ## Error values -/

section Values

variable {K : Type*} [Field K] [CharP K 2] {α : K} {S : ℕ → K} (hα : α ^ 5 = α ^ 2 + 1)

include hα

theorem Tables.to_poly {rs : ReedSolomon} (ht : Tables rs) {e : ℤ} (he : Idx e) :
    Sym (if e ≠ -1 then rs.alpha_to e.toNat else 0) ∧
      ofPoly α (if e ≠ -1 then rs.alpha_to e.toNat else 0) = ofIndex α e := by
  by_cases h : e = -1
  · rw [if_neg (not_not.2 h), h, ofIndex_neg_one, ofPoly_zero]
    exact ⟨sym_zero, rfl⟩
  · have h0 : 0 ≤ e := by have := he.1; omega
    rw [if_pos h]
    exact ⟨ht.alpha_sym h0 he.2, ht.alpha_spec hα h0 he.2⟩

theorem evaluatorCoeff_spec {rs : ReedSolomon} (ht : Tables rs) (hs : Syndromes α S rs) {u i : ℕ} (h1 : 1 ≤ i)
    (h8 : i ≤ 8) (he : ∀ j ≤ i, Idx (rs.elp u j)) :
    Sym (rs.evaluatorCoeff u i) ∧ ofPoly α (rs.evaluatorCoeff u i) =
      S i + ofIndex α (rs.elp u i) + ∑ j ∈ Finset.Ico 1 i, S j * ofIndex α (rs.elp u (i - j)) := by
  obtain ⟨hidx, hval⟩ := hs i h1 h8
  -- the four branches of the start value are one sum
  have hstart : (if rs.s i ≠ -1 ∧ rs.elp u i ≠ -1 then
      Int.xor (rs.alpha_to (rs.s i).toNat) (rs.alpha_to (rs.elp u i).toNat)
    else if rs.s i ≠ -1 ∧ rs.elp u i = -1 then rs.alpha_to (rs.s i).toNat
    else if rs.s i = -1 ∧ rs.elp u i ≠ -1 then rs.alpha_to (rs.elp u i).toNat
    else 0) = Int.xor (if rs.s i ≠ -1 then rs.alpha_to (rs.s i).toNat else 0)
      (if rs.elp u i ≠ -1 then rs.alpha_to (rs.elp u i).toNat else 0) := by
    have hx0 : ∀ x, Sym x → Int.xor x 0 = x ∧ Int.xor 0 x = x := fun x hx => by
      obtain ⟨m, rfl⟩ := Int.eq_ofNat_of_zero_le hx.1
      exact ⟨congrArg Int.ofNat (Nat.xor_zero m), congrArg Int.ofNat (Nat.zero_xor m)⟩
    have ha : rs.s i ≠ -1 → Sym (rs.alpha_to (rs.s i).toNat) := fun h => by
      have := (ht.to_poly hα hidx).1
      rwa [if_pos h] at this
    have hb : rs.elp u i ≠ -1 → Sym (rs.alpha_to (rs.elp u i).toNat) := fun h => by
      have := (ht.to_poly hα (he i (le_refl i))).1
      rwa [if_pos h] at this
    by_cases h1 : rs.s i = -1
    · by_cases h2 : rs.elp u i = -1
      · simp [h1, h2]
        rfl
      · simp [h1, h2, (hx0 _ (hb h2)).2]
    · by_cases h2 : rs.elp u i = -1
      · simp [h1, h2, (hx0 _ (ha h1)).1]
      · simp [h1, h2]
  obtain ⟨ha, hav⟩ := ht.to_poly hα hidx
  obtain ⟨hb, hbv⟩ := ht.to_poly hα (he i (le_refl i))
  unfold evaluatorCoeff
  simp only [hstart]
  generalize (if rs.s i ≠ -1 then rs.alpha_to (rs.s i).toNat else 0) = a at ha hav
  generalize (if rs.elp u i ≠ -1 then rs.alpha_to (rs.elp u i).toNat else 0) = b at hb hbv
  have hloop := forUp_sum (a := 1) (b := i) (s := Int.xor a b)
    (f := fun j v => if rs.s j ≠ -1 ∧ rs.elp u (i - j) ≠ -1 then
      Int.xor v (rs.exp (rs.elp u (i - j) + rs.s j)) else v)
    Sym (ofPoly α) (fun j => S j * ofIndex α (rs.elp u (i - j))) h1 (ha.xor hb) ?_
  · refine ⟨hloop.1, hloop.2.trans ?_⟩
    rw [ofPoly_xor ha hb, hav, hbv, hval]
  · intro j v hj hji hv
    obtain ⟨hjx, hjv⟩ := hs j hj (by omega)
    have hex := he (i - j) (by omega)
    rw [← hjv]
    by_cases h1 : rs.s j = -1
    · rw [if_neg (fun h => h.1 h1), h1, ofIndex_neg_one, zero_mul, add_zero]
      exact ⟨hv, rfl⟩
    by_cases h2 : rs.elp u (i - j) = -1
    · rw [if_neg (fun h => h.2 h2), h2, ofIndex_neg_one, mul_zero, add_zero]
      exact ⟨hv, rfl⟩
    · have h1' : 0 ≤ rs.s j := by have := hjx.1; omega
      have h2' : 0 ≤ rs.elp u (i - j) := by have := hex.1; omega
      have hp := ht.exp_sym (e := rs.elp u (i - j) + rs.s j) (by omega)
      rw [if_pos ⟨h1, h2⟩, ofPoly_xor hv hp, ht.exp_add hα h2' h1', mul_comm (ofIndex α (rs.s j))]
      exact ⟨hv.xor hp, rfl⟩

/-- The numerator is the value of `1 + z_1 x + ...` at the root. -/
theorem numerator_spec {rs : ReedSolomon} (ht : Tables rs) {lu : ℕ} (hz : ∀ j, 1 ≤ j → j ≤ lu → Idx (rs.z j)) (i : ℕ) :
    Sym (rs.numerator lu i) ∧ ofPoly α (rs.numerator lu i) =
      1 + ∑ j ∈ Finset.Ico 1 (lu + 1), ofIndex α (rs.z j) * (α ^ rs.root i) ^ j := by
  have h := forUp_sum (a := 1) (b := lu + 1) (s := (1 : ℤ))
    (f := fun j v => if rs.z j ≠ -1 then Int.xor v (rs.exp (rs.z j + (j * rs.root i : ℕ))) else v)
    Sym (ofPoly α) (fun j => ofIndex α (rs.z j) * (α ^ rs.root i) ^ j) (by omega) sym_one ?_
  · rw [ofPoly_one] at h
    exact h
  · intro j v hj hjl hv
    rw [← pow_mul, mul_comm (rs.root i) j]
    exact ht.add_term hα hv (hz j hj (by omega)) (j * rs.root i)

/-- The denominator is the logarithm of the product of the other factors of the locator. -/
theorem denominator_spec {rs : ReedSolomon} (ht : Tables rs) {lu i : ℕ}
    (hne : ∀ j < lu, j ≠ i → 1 + α ^ rs.loc j * α ^ rs.root i ≠ 0) :
    0 ≤ rs.denominator lu i ∧ α ^ (rs.denominator lu i).toNat =
      ∏ j ∈ Finset.range lu, if j ≠ i then 1 + α ^ rs.loc j * α ^ rs.root i else 1 := by
  refine forUp_rule (P := fun n (q : ℤ) => 0 ≤ q ∧ α ^ q.toNat =
    ∏ j ∈ Finset.range n, if j ≠ i then 1 + α ^ rs.loc j * α ^ rs.root i else 1) (Nat.zero_le lu) (by simp) ?_
  rintro j q - hj ⟨hq, hprod⟩
  rw [Finset.prod_range_succ, ← hprod]
  by_cases hji : j = i
  · rw [if_neg (not_not.2 hji), if_neg (not_not.2 hji), mul_one]
    exact ⟨hq, rfl⟩
  · have he := ht.exp_sym (e := (rs.loc j + rs.root i : ℕ)) (by omega)
    have hx : Sym (Int.xor 1 (rs.exp (rs.loc j + rs.root i : ℕ))) := sym_one.xor he
    have hval : ofPoly α (Int.xor 1 (rs.exp (rs.loc j + rs.root i : ℕ))) = 1 + α ^ rs.loc j * α ^ rs.root i := by
      rw [ofPoly_xor sym_one he, ofPoly_one, ht.exp_spec hα (by omega), Int.toNat_natCast, pow_add]
    have h0 : Int.xor 1 (rs.exp (rs.loc j + rs.root i : ℕ)) ≠ 0 := fun h => by
      rw [h, ofPoly_zero] at hval
      exact hne j hj hji hval.symm
    have hl := ht.log_nonneg hx h0
    rw [if_pos hji, if_pos hji, Int.toNat_add hq hl, pow_add, ← ofIndex_of_nonneg hl, ht.log_spec hα hx, hval]
    exact ⟨by omega, rfl⟩

/-- The quotient of numerator and denominator. -/
theorem quotient_spec {rs : ReedSolomon} (ht : Tables rs) {v q : ℤ} (hv : Sym v) (h0 : v ≠ 0) (hq : 0 ≤ q) :
    Sym (rs.exp (rs.log v - q.tmod nn + nn)) ∧
      ofPoly α (rs.exp (rs.log v - q.tmod nn + nn)) = ofPoly α v / α ^ q.toNat := by
  have h1 : q.tmod nn = q % 31 := by simpa using Int.tmod_eq_emod_of_nonneg hq
  have hl := ht.log_nonneg hv h0
  have hnn : (nn : ℤ) = 31 := rfl
  have hpos : 0 ≤ rs.log v - q.tmod nn + nn := by omega
  refine ⟨ht.exp_sym hpos, ?_⟩
  have hmod : α ^ q.toNat = α ^ (q % 31).toNat := by
    rw [show (q % 31).toNat = q.toNat % 31 by omega, alpha_pow_mod hα]
  rw [ht.exp_spec hα hpos, hmod, ← ht.log_spec hα hv, ofIndex_of_nonneg hl,
    eq_div_iff (pow_ne_zero _ (alpha_ne_zero hα)), ← pow_add,
    show (rs.log v - q.tmod nn + nn).toNat + (q % 31).toNat = (rs.log v).toNat + 31 by omega, pow_add,
    alpha_pow_31 hα, mul_one]

end Values

/-! ## Correction -/

section Correction

variable {K : Type*} [Field K] [CharP K 2] {α : K}

/-- The search found the positions `E`, and `z` is their evaluator. -/
structure Located (α : K) (E : Finset ℕ) (y : ℕ → K) (u : ℕ) (rs : ReedSolomon) : Prop where
  tables : Tables rs
  len : rs.l u = E.card
  pos : ∀ j ∈ E, j < 31
  loc_mem : ∀ k < E.card, rs.loc k ∈ E
  loc_inj : ∀ k < E.card, ∀ k' < E.card, rs.loc k = rs.loc k' → k = k'
  loc_surj : ∀ j ∈ E, ∃ k < E.card, rs.loc k = j
  root : ∀ k < E.card, rs.root k + rs.loc k = 31
  z : ∀ j, 1 ≤ j → j ≤ E.card → Idx (rs.z j) ∧ ofIndex α (rs.z j) = (evaluator E (α ^ ·) y).coeff j

variable {E : Finset ℕ} {y : ℕ → K} (hα : α ^ 5 = α ^ 2 + 1)

include hα

omit [CharP K 2] in
theorem alpha_pow_ne_zero (j : ℕ) : α ^ j ≠ 0 := pow_ne_zero j (alpha_ne_zero hα)

theorem alpha_pow_injOn (hE : ∀ j ∈ E, j < 31) : Set.InjOn (α ^ ·) (E : Set ℕ) := fun i hi j hj h =>
  alpha_pow_inj hα (hE i hi) (hE j hj) h

/-- The numerator at a location is the error there, times the power that the denominator stands for. -/
theorem Located.numerator_value {u : ℕ} {rs : ReedSolomon} (h : Located α E y u rs) {k : ℕ} (hk : k < E.card) :
    Sym (rs.numerator (rs.l u) k) ∧ 0 ≤ rs.denominator (rs.l u) k ∧
      ofPoly α (rs.numerator (rs.l u) k) = y (rs.loc k) * α ^ (rs.denominator (rs.l u) k).toNat := by
  have hroot : α ^ rs.root k = (α ^ rs.loc k)⁻¹ :=
    eq_inv_of_mul_eq_one_left (by rw [← pow_add, h.root k hk, alpha_pow_31 hα])
  -- the factors of the denominator, over the indices and over the positions
  have hfactor : ∀ j, 1 + α ^ j * α ^ rs.root k = 1 - α ^ j * (α ^ rs.loc k)⁻¹ := fun j => by
    rw [hroot, CharTwo.sub_eq_add]
  have hprod : ∏ j ∈ Finset.range E.card, (if j ≠ k then 1 + α ^ rs.loc j * α ^ rs.root k else 1) =
      ∏ j ∈ E.erase (rs.loc k), (1 - α ^ j * (α ^ rs.loc k)⁻¹) := by
    rw [← Finset.prod_filter]
    refine Finset.prod_bij (fun j _ => rs.loc j) ?_ ?_ ?_ fun j _ => hfactor _
    · intro j hj
      obtain ⟨h1, h2⟩ := Finset.mem_filter.1 hj
      have h1 := Finset.mem_range.1 h1
      exact Finset.mem_erase.2 ⟨fun he => h2 (h.loc_inj j h1 k hk he), h.loc_mem j h1⟩
    · intro i hi j hj he
      exact h.loc_inj i (Finset.mem_range.1 (Finset.mem_filter.1 hi).1) j
        (Finset.mem_range.1 (Finset.mem_filter.1 hj).1) he
    · intro j hj
      obtain ⟨hne, hjE⟩ := Finset.mem_erase.1 hj
      obtain ⟨i, hi, rfl⟩ := h.loc_surj j hjE
      exact ⟨i, Finset.mem_filter.2 ⟨Finset.mem_range.2 hi, fun he => hne (by rw [he])⟩, rfl⟩
  have hne : ∀ j < E.card, j ≠ k → 1 + α ^ rs.loc j * α ^ rs.root k ≠ 0 := fun j hj hjk h0 => by
    rw [hfactor, sub_eq_zero, eq_comm, mul_inv_eq_one₀ (alpha_pow_ne_zero hα _)] at h0
    exact hjk (h.loc_inj j hj k hk
      (alpha_pow_inj hα (h.pos _ (h.loc_mem j hj)) (h.pos _ (h.loc_mem k hk)) h0))
  rw [h.len]
  obtain ⟨hd0, hd⟩ := denominator_spec hα h.tables hne
  obtain ⟨hv, hval⟩ := numerator_spec hα h.tables (fun j h1 h2 => (h.z j h1 h2).1) k
  refine ⟨hv, hd0, ?_⟩
  rw [hd, hprod, ← eval_evaluator (h.loc_mem k hk) (alpha_pow_ne_zero hα _), eval_evaluator_eq_sum, hval, hroot,
    Finset.sum_Ico_eq_sum_range, Nat.add_sub_cancel]
  refine congrArg (1 + ·) (Finset.sum_congr rfl fun j hj => ?_)
  have := Finset.mem_range.1 hj
  rw [add_comm 1 j, (h.z (j + 1) (by omega) (by omega)).2]

/-- The term that `correctOne` adds is the error at its location; it adds none where the error vanishes. -/
theorem Located.error_value {u : ℕ} {rs : ReedSolomon} (h : Located α E y u rs) {k : ℕ} (hk : k < E.card) :
    (rs.numerator (rs.l u) k = 0 → y (rs.loc k) = 0) ∧
      (rs.numerator (rs.l u) k ≠ 0 →
        Sym (rs.exp (rs.log (rs.numerator (rs.l u) k) - (rs.denominator (rs.l u) k).tmod nn + nn)) ∧
          ofPoly α (rs.exp (rs.log (rs.numerator (rs.l u) k) - (rs.denominator (rs.l u) k).tmod nn + nn)) =
            y (rs.loc k)) := by
  obtain ⟨hv, hd0, hnum⟩ := h.numerator_value hα hk
  have hdne : α ^ (rs.denominator (rs.l u) k).toNat ≠ 0 := pow_ne_zero _ (alpha_ne_zero hα)
  constructor
  · intro h0
    rw [h0, ofPoly_zero] at hnum
    exact (mul_eq_zero.1 hnum.symm).resolve_right hdne
  · intro hn0
    obtain ⟨hs, hq⟩ := quotient_spec hα h.tables hv hn0 hd0
    exact ⟨hs, by rw [hq, hnum, mul_div_cancel_right₀ _ hdne]⟩

theorem toPolynomial_spec (rs : ReedSolomon) (ht : Tables rs) (hr : ∀ j < 31, Idx (rs.recd j)) {j : ℕ} (hj : j < 31) :
    Sym ((toPolynomial rs).recd j) ∧ ofPoly α ((toPolynomial rs).recd j) = ofIndex α (rs.recd j) := by
  have hcell : (toPolynomial rs).recd j = if rs.recd j ≠ -1 then rs.alpha_to (rs.recd j).toNat else 0 := by
    simp only [toPolynomial]
    rw [forUp_map 0 nn (fun _ x => if x ≠ -1 then rs.alpha_to x.toNat else 0)]
    exact if_pos ⟨Nat.zero_le j, hj⟩
  rw [hcell]
  exact ht.to_poly hα (hr j hj)

/-- The errors are added to the received word, each at its own position. -/
theorem correctErrors_spec {u : ℕ} {rs : ReedSolomon} (h : Located α E y u rs) (hr : ∀ j < 31, Idx (rs.recd j))
    {j : ℕ} (hj : j < 31) :
    Sym ((correctErrors u rs).recd j) ∧
      ofPoly α ((correctErrors u rs).recd j) = ofIndex α (rs.recd j) + if j ∈ E then y j else 0 := by
  have hpoly := fun j hj =>
    toPolynomial_spec hα { rs with err := forUp 0 nn (fun i err => Function.update err i 0) rs.err }
      (h.tables.of_eq rfl rfl) hr (j := j) hj
  unfold correctErrors
  simp only
  generalize ht : toPolynomial { rs with err := forUp 0 nn (fun i err => Function.update err i 0) rs.err } = r0 at hpoly
  have hfr : ∃ err recd, r0 = { rs with err := err, recd := recd } := ⟨_, _, ht.symm⟩
  have hrule := forUp_rule (a := 0) (b := rs.l u) (s := r0) (f := correctOne (rs.l u))
    (fun i r => (∃ err recd, r = { rs with err := err, recd := recd }) ∧
      ∀ j < 31, Sym (r.recd j) ∧ ofPoly α (r.recd j) = ofIndex α (rs.recd j) +
        if ∃ k < i, rs.loc k = j then y j else 0)
    (Nat.zero_le _) ⟨hfr, fun j hj => ?_⟩ ?_
  · obtain ⟨hs, hv⟩ := hrule.2 j hj
    refine ⟨hs, hv.trans (congrArg (ofIndex α (rs.recd j) + ·) (if_congr ?_ rfl rfl))⟩
    rw [h.len]
    exact ⟨fun ⟨k, hk, he⟩ => he ▸ h.loc_mem k hk, h.loc_surj j⟩
  · obtain ⟨hs, hv⟩ := hpoly j hj
    refine ⟨hs, ?_⟩
    rw [hv, if_neg (by rintro ⟨k, hk, -⟩; omega), add_zero]
  · rintro i _ - hi ⟨⟨err, recd, rfl⟩, hcells⟩
    rw [h.len] at hi
    obtain ⟨hzero, herror⟩ := h.error_value hα hi
    simp only at hcells
    -- the location of this round has not been met before
    have hbefore : ¬ ∃ k < i, rs.loc k = rs.loc i := by
      rintro ⟨k, hk, he⟩
      have := h.loc_inj k (by omega) i hi he
      omega
    have hother : ∀ j, j ≠ rs.loc i → ((∃ k < i + 1, rs.loc k = j) ↔ ∃ k < i, rs.loc k = j) := fun j hji => by
      constructor
      · rintro ⟨k, hk, rfl⟩
        rcases Nat.lt_or_eq_of_le (Nat.le_of_lt_succ hk) with hlt | rfl
        · exact ⟨k, hlt, rfl⟩
        · exact absurd rfl hji
      · rintro ⟨k, hk, he⟩
        exact ⟨k, by omega, he⟩
    by_cases hn0 : rs.numerator (rs.l u) i = 0
    · have hone : correctOne (rs.l u) i { rs with err := err, recd := recd } =
          { rs with
            err := Function.update err (rs.loc i) (rs.numerator (rs.l u) i)
            recd := recd } := if_neg (not_not.2 hn0)
      rw [hone]
      refine ⟨⟨_, _, rfl⟩, fun j hj => ?_⟩
      obtain ⟨hs, hv⟩ := hcells j hj
      refine ⟨hs, hv.trans ?_⟩
      by_cases hji : j = rs.loc i
      · subst hji
        rw [if_neg hbefore, if_pos ⟨i, by omega, rfl⟩, hzero hn0]
      · rw [if_congr (hother j hji) rfl rfl]
    · have hone : correctOne (rs.l u) i { rs with err := err, recd := recd } =
          { rs with
            err := Function.update err (rs.loc i)
              (rs.exp (rs.log (rs.numerator (rs.l u) i) - (rs.denominator (rs.l u) i).tmod nn + nn))
            recd := Function.update recd (rs.loc i) (Int.xor (recd (rs.loc i))
              (rs.exp (rs.log (rs.numerator (rs.l u) i) - (rs.denominator (rs.l u) i).tmod nn + nn))) } := if_pos hn0
      obtain ⟨hes, hev⟩ := herror hn0
      rw [hone]
      refine ⟨⟨_, _, rfl⟩, fun j hj => ?_⟩
      simp only
      obtain ⟨hs, hv⟩ := hcells j hj
      by_cases hji : j = rs.loc i
      · subst hji
        rw [if_neg hbefore, add_zero] at hv
        rw [Function.update_self, if_pos ⟨i, by omega, rfl⟩, ofPoly_xor hs hes, hv, hev]
        exact ⟨hs.xor hes, rfl⟩
      · rw [Function.update_of_ne hji, if_congr (hother j hji) rfl rfl]
        exact ⟨hs, hv⟩

/-! ## Search -/

/-- The last row of the iteration is the locator of the error positions. -/
theorem findLocator_locator {rs : ReedSolomon} (ht : Tables rs) (hs : Syndromes α (powerSum E (α ^ ·) y) rs)
    (hE : ∀ j ∈ E, j < 31) (hcard : E.card ≤ 4) (hy : ∀ j ∈ E, y j ≠ 0) :
    (findLocator rs).1 = 9 ∧ (findLocator rs).2.l 9 = E.card ∧
      ∀ i ≤ E.card, Sym ((findLocator rs).2.elp 9 i) ∧
        ofPoly α ((findLocator rs).2.elp 9 i) = (locator E (α ^ ·)).coeff i := by
  have ha : ∀ k ∈ E, (α ^ ·) k ≠ 0 := fun k _ => alpha_pow_ne_zero hα k
  obtain ⟨h9, hle, hsym, hgen⟩ := findLocator_spec hα ht hs hcard fun u => generates_locator ha u
  obtain ⟨hrow, hlen⟩ := row_eq_locator ha (alpha_pow_injOn hα hE) hy hgen hle (by omega)
  refine ⟨h9, hlen, fun i hi => ⟨hsym i (by omega), ?_⟩⟩
  rw [← hrow, coeff_rowPoly _ (by omega)]

omit [CharP K 2] hα in
/-- The value of a row in index form whose coefficients are those of the locator. -/
theorem rowValue_locator {rs : ReedSolomon} {u : ℕ} (hl : rs.l u = E.card)
    (hc : ∀ i ≤ E.card, ofIndex α (rs.elp u i) = (locator E (α ^ ·)).coeff i) (x : K) :
    rowValue α rs u x = (locator E (α ^ ·)).eval x := by
  rw [rowValue, hl, Polynomial.eval_eq_sum_range' (Nat.lt_succ_of_le (natDegree_locator_le E _)), Finset.range_eq_Ico,
    Finset.sum_eq_sum_Ico_succ_bot (Nat.succ_pos _), coeff_locator_zero, pow_zero, mul_one]
  refine congrArg (1 + ·) (Finset.sum_congr rfl fun j hj => ?_)
  have := Finset.mem_Ico.1 hj
  rw [hc j (by omega)]

theorem formEvaluator_z {rs : ReedSolomon} (ht : Tables rs) (hs : Syndromes α (powerSum E (α ^ ·) y) rs) {u : ℕ}
    (hl : rs.l u = E.card) (hcard : E.card ≤ 4) (he : ∀ i ≤ E.card, Idx (rs.elp u i))
    (hc : ∀ i ≤ E.card, ofIndex α (rs.elp u i) = (locator E (α ^ ·)).coeff i) {i : ℕ} (h1 : 1 ≤ i)
    (hi : i ≤ E.card) :
    Idx ((formEvaluator u rs).z i) ∧ ofIndex α ((formEvaluator u rs).z i) = (evaluator E (α ^ ·) y).coeff i := by
  obtain ⟨hsym, hval⟩ := evaluatorCoeff_spec hα ht hs (u := u) h1 (by omega) fun j hj => he j (by omega)
  have hz : (formEvaluator u rs).z i = rs.log (rs.evaluatorCoeff u i) := by
    simp only [formEvaluator]
    rw [forUp_fill 1 (rs.l u + 1) (fun i => rs.log (rs.evaluatorCoeff u i))]
    exact if_pos ⟨h1, by omega⟩
  rw [hz, ht.log_spec hα hsym, hval, hc i hi]
  refine ⟨ht.log_idx hsym, ?_⟩
  obtain ⟨n, rfl⟩ : ∃ n, i = n + 1 := ⟨i - 1, by omega⟩
  rw [coeff_evaluator, Finset.sum_range_succ, Nat.sub_self, coeff_locator_zero, mul_one,
    Finset.sum_Ico_eq_sum_range, Nat.add_sub_cancel, add_comm (powerSum E (α ^ ·) y (n + 1)), add_assoc]
  refine congrArg (Polynomial.coeff _ (n + 1) + ·) ?_
  rw [add_comm]
  refine congrArg (· + powerSum E (α ^ ·) y (n + 1)) (Finset.sum_congr rfl fun j hj => ?_)
  have := Finset.mem_range.1 hj
  rw [add_comm 1 j, hc _ (by omega), show n + 1 - (j + 1) = n - j by omega]

/-- Where the row in `elp[9]` is the locator of `E`, the search finds `E` and the evaluator is formed from it. -/
theorem located_of_row {r : ReedSolomon} (ht : Tables r) (hs : Syndromes α (powerSum E (α ^ ·) y) r)
    (hE : ∀ j ∈ E, j < 31) (hcard : E.card ≤ 4) (hl : r.l 9 = E.card)
    (hrow : ∀ i ≤ E.card, Sym (r.elp 9 i) ∧ ofPoly α (r.elp 9 i) = (locator E (α ^ ·)).coeff i) :
    (findRoots 9 r).1 = E.card ∧ (findRoots 9 r).2.l 9 = E.card ∧
      Located α E y 9 (formEvaluator 9 (findRoots 9 r).2) := by
  obtain ⟨elp, reg, root, loc, hframe⟩ := findRoots_frame 9 r
  obtain ⟨help, hlist⟩ := findRoots_spec hα ht (u := 9) fun j hj => (hrow j (by omega)).1
  generalize findRoots 9 r = g at help hlist hframe
  have hlg : g.2.l 9 = E.card := by rw [hframe]; exact hl
  have htg : Tables g.2 := by rw [hframe]; exact ht.of_eq rfl rfl
  have hsg : Syndromes α (powerSum E (α ^ ·) y) g.2 := by rw [hframe]; exact hs
  have hidx : ∀ i ≤ E.card, Idx (g.2.elp 9 i) := fun i hi => by
    rw [help i (by omega)]
    exact ht.log_idx (hrow i hi).1
  have hcoeff : ∀ i ≤ E.card, ofIndex α (g.2.elp 9 i) = (locator E (α ^ ·)).coeff i := fun i hi => by
    rw [help i (by omega), ht.log_spec hα (hrow i hi).1, (hrow i hi).2]
  obtain ⟨hcount, hmem, hinj, hsurj, hsum⟩ := hlist.card hE fun i h1 h31 => by
    rw [rowValue_locator hlg hcoeff, eval_locator_pow hα hE h1 h31]
  refine ⟨hcount, hlg, ?_⟩
  rw [hcount] at hmem hinj hsurj hsum
  exact ⟨htg.of_eq rfl rfl, hlg, hE, hmem, hinj, hsurj, hsum, fun j h1 h2 =>
    formEvaluator_z hα htg hsg hlg hcard hidx hcoeff h1 h2⟩

/-- The three phases after the syndromes find the error positions and their evaluator. -/
theorem located {rs : ReedSolomon} (ht : Tables rs) (hs : Syndromes α (powerSum E (α ^ ·) y) rs)
    (hE : ∀ j ∈ E, j < 31) (hcard : E.card ≤ 4) (hy : ∀ j ∈ E, y j ≠ 0) :
    (findLocator rs).1 = 9 ∧ (findLocator rs).2.l 9 = E.card ∧
      (findRoots 9 (findLocator rs).2).1 = E.card ∧ (findRoots 9 (findLocator rs).2).2.l 9 = E.card ∧
      Located α E y 9 (formEvaluator 9 (findRoots 9 (findLocator rs).2).2) := by
  obtain ⟨h9, hl, hrow⟩ := findLocator_locator hα ht hs hE hcard hy
  obtain ⟨d, elp, l, u_lu, hframe⟩ := findLocator_frame rs
  have htr : Tables (findLocator rs).2 := by rw [hframe]; exact ht.of_eq rfl rfl
  have hsr : Syndromes α (powerSum E (α ^ ·) y) (findLocator rs).2 := by rw [hframe]; exact hs
  exact ⟨h9, hl, located_of_row hα htr hsr hE hcard hl hrow⟩

/-- A row that generates all syndromes and has as many roots as its length is the locator of these roots, and the
syndromes are the power sums over them. -/
theorem exists_located {S : ℕ → K} {r : ReedSolomon} (h : Rows α S 9 r) (hl : r.l 9 ≤ 4)
    (hcount : (findRoots 9 r).1 = (findRoots 9 r).2.l 9) :
    ∃ (E : Finset ℕ) (y : ℕ → K), (∀ j ∈ E, j < 31) ∧ E.card ≤ 4 ∧
      (∀ n, 1 ≤ n → n ≤ 8 → S n = powerSum E (α ^ ·) y n) ∧
      Located α E y 9 (formEvaluator 9 (findRoots 9 r).2) := by
  obtain ⟨elp, reg, root, loc, hframe⟩ := findRoots_frame 9 r
  obtain ⟨help, hlist⟩ := findRoots_spec hα h.tables (u := 9) h.last
  have hlr : (findRoots 9 r).2.l 9 = r.l 9 := by rw [hframe]
  have hpos : ∀ k < (findRoots 9 r).1, (findRoots 9 r).2.root k + (findRoots 9 r).2.loc k = 31 ∧
      (findRoots 9 r).2.loc k < 31 := fun k hk => by
    obtain ⟨h1, h2, -, h4⟩ := hlist.sound k hk
    rw [h4, nn_eq]
    omega
  have hinj : Set.InjOn (findRoots 9 r).2.loc (Finset.range (findRoots 9 r).1 : Set ℕ) := fun k hk k' hk' he => by
    have hk := Finset.mem_range.1 hk
    have hk' := Finset.mem_range.1 hk'
    have h1 := (hpos k hk).1
    have h2 := (hpos k' hk').1
    rcases Nat.lt_trichotomy k k' with hlt | heq | hgt
    · have := hlist.mono k' hk' k hlt
      omega
    · exact heq
    · have := hlist.mono k hk k' hgt
      omega
  have hcard : ((Finset.range (findRoots 9 r).1).image (findRoots 9 r).2.loc).card = r.l 9 := by
    rw [Finset.card_image_of_injOn hinj, Finset.card_range, hcount, hlr]
  have hE : ∀ j ∈ (Finset.range (findRoots 9 r).1).image (findRoots 9 r).2.loc, j < 31 := fun j hj => by
    obtain ⟨k, hk, rfl⟩ := Finset.mem_image.1 hj
    exact (hpos k (Finset.mem_range.1 hk)).2
  -- the value of the row at the inverse of each position
  have hroot : ∀ j ∈ (Finset.range (findRoots 9 r).1).image (findRoots 9 r).2.loc,
      (rowPoly (fun i => ofPoly α (r.elp 9 i)) (r.l 9)).eval (α ^ j)⁻¹ = 0 := fun j hj => by
    obtain ⟨k, hk, rfl⟩ := Finset.mem_image.1 hj
    have hk := Finset.mem_range.1 hk
    have hinv : (α ^ (findRoots 9 r).2.loc k)⁻¹ = α ^ (findRoots 9 r).2.root k :=
      (eq_inv_of_mul_eq_one_left (by rw [← pow_add, (hpos k hk).1, alpha_pow_31 hα])).symm
    have hval := (hlist.sound k hk).2.2.1
    rw [rowValue, hlr] at hval
    have hhead := (h.table.row 9 (by omega) (le_refl 9)).1.head
    rw [cells, if_neg (Nat.lt_irrefl 9)] at hhead
    rw [hinv, eval_rowPoly, Finset.range_eq_Ico, Finset.sum_eq_sum_Ico_succ_bot (Nat.succ_pos _), hhead, pow_zero,
      mul_one, ← hval]
    refine congrArg (1 + ·) (Finset.sum_congr rfl fun i hi => ?_)
    have := Finset.mem_Ico.1 hi
    rw [help i (by omega), h.tables.log_spec hα (h.last i (by omega))]
  generalize (Finset.range (findRoots 9 r).1).image (findRoots 9 r).2.loc = E at hcard hE hroot
  have hcells : cells α 9 r 9 = fun i => ofPoly α (r.elp 9 i) := funext fun i => if_neg (Nat.lt_irrefl 9)
  have hgen := (h.table.row 9 (by omega) (le_refl 9)).1
  rw [hcells] at hgen
  have hrow := row_eq_of_roots (fun k _ => alpha_pow_ne_zero hα k) (alpha_pow_injOn hα hE) hgen.head
    (le_of_eq hcard.symm) hroot
  obtain ⟨y, hy⟩ := exists_powerSum (fun k _ => alpha_pow_ne_zero hα k) (alpha_pow_injOn hα hE) hgen hrow hcard.symm
  refine ⟨E, y, hE, by omega, fun n h1 h8 => hy n h1 (by omega), ?_⟩
  refine (located_of_row hα h.tables (fun n h1 h8 => ?_) hE (by omega) hcard.symm fun i hi => ?_).2.2
  · rw [← hy n h1 (by omega)]
    exact h.syn n h1 h8
  · refine ⟨h.last i (by omega), ?_⟩
    rw [← hrow, coeff_rowPoly _ (by omega)]

end Correction

/-! ## The whole of `Decode` -/

theorem decode_clean {rs r : ReedSolomon} (hs : syndromes rs = (false, r)) : Decode rs = toPolynomial r := by
  unfold Decode
  rw [hs]
  rfl

/-- The only path on which the received word is changed. -/
theorem decode_corrected {rs r r' r'' : ReedSolomon} {u count : ℕ} (hs : syndromes rs = (true, r))
    (hf : findLocator r = (u, r')) (hl : r'.l u ≤ tt) (hr : findRoots u r' = (count, r'')) (hc : count = r''.l u) :
    Decode rs = correctErrors u (formEvaluator u r'') := by
  -- one branch at a time: the kernel must never reduce a match on a whole phase
  unfold Decode
  rw [hs]
  refine (if_pos rfl).trans ?_
  rw [hf]
  refine (if_pos hl).trans ?_
  rw [hr]
  exact if_pos hc

theorem decode_degree {rs r r' : ReedSolomon} {u : ℕ} (hs : syndromes rs = (true, r)) (hf : findLocator r = (u, r'))
    (hl : ¬ r'.l u ≤ tt) : Decode rs = toPolynomial r' := by
  unfold Decode
  rw [hs]
  refine (if_pos rfl).trans ?_
  rw [hf]
  exact if_neg hl

theorem decode_roots {rs r r' r'' : ReedSolomon} {u count : ℕ} (hs : syndromes rs = (true, r))
    (hf : findLocator r = (u, r')) (hl : r'.l u ≤ tt) (hr : findRoots u r' = (count, r'')) (hc : ¬ count = r''.l u) :
    Decode rs = toPolynomial r'' := by
  unfold Decode
  rw [hs]
  refine (if_pos rfl).trans ?_
  rw [hf]
  refine (if_pos hl).trans ?_
  rw [hr]
  exact if_neg hc

section Decode

variable {K : Type*} [Field K] [CharP K 2] {α : K} (hα : α ^ 5 = α ^ 2 + 1)

include hα

/-- The syndromes of a word `r` are the weighted power sums over the positions where it differs from a code word. -/
theorem syndromes_powerSum {rs : ReedSolomon} (ht : Tables rs) {c r : ℕ → ℤ} (hr : ∀ j < 31, Sym (r j))
    (hroot : ∀ m, 1 ≤ m → m ≤ 8 → ∑ j ∈ Finset.range 31, ofPoly α (c j) * (α ^ j) ^ m = 0)
    (hrecd : ∀ j < 31, rs.recd j = rs.log (r j)) {m : ℕ} (h1 : 1 ≤ m) (h8 : m ≤ 8) :
    Sym (rs.syndrome m) ∧ ofPoly α (rs.syndrome m) =
      powerSum ((Finset.range 31).filter fun j => c j ≠ r j) (α ^ ·) (fun j => ofPoly α (c j) + ofPoly α (r j)) m := by
  have hidx : ∀ j < 31, Idx (rs.recd j) := fun j hj => by
    rw [hrecd j hj]
    exact ht.log_idx (hr j hj)
  obtain ⟨hsym, hval⟩ := syndrome_spec hα ht hidx m
  refine ⟨hsym, ?_⟩
  have hword : ∑ j ∈ Finset.range 31, ofIndex α (rs.recd j) * (α ^ j) ^ m =
      ∑ j ∈ Finset.range 31, (ofPoly α (c j) + ofPoly α (r j)) * (α ^ j) ^ m := by
    simp only [add_mul, Finset.sum_add_distrib, hroot m h1 h8, zero_add]
    refine Finset.sum_congr rfl fun j hj => ?_
    have hj := Finset.mem_range.1 hj
    rw [hrecd j hj, ht.log_spec hα (hr j hj)]
  rw [hval, hword, powerSum, Finset.sum_filter]
  refine Finset.sum_congr rfl fun j _ => ?_
  by_cases hj : c j = r j
  · rw [if_neg (not_not.2 hj), hj, CharTwo.add_self_eq_zero, zero_mul]
  · rw [if_pos hj]

/-- A word that differs from a code word in at most four symbols is corrected to it. -/
theorem decode_corrects {rs : ReedSolomon} (ht : Tables rs) {c r : ℕ → ℤ} (hc : ∀ j < 31, Sym (c j))
    (hr : ∀ j < 31, Sym (r j))
    (hroot : ∀ m, 1 ≤ m → m ≤ 8 → ∑ j ∈ Finset.range 31, ofPoly α (c j) * (α ^ j) ^ m = 0)
    (herr : ((Finset.range 31).filter fun j => c j ≠ r j).card ≤ 4) (hrecd : ∀ j < 31, rs.recd j = rs.log (r j))
    {j : ℕ} (hj : j < 31) : (Decode rs).recd j = c j := by
  obtain ⟨hflag, s, hframe, hs⟩ := syndromes_spec rs
  have hsyn := fun m h1 h8 => syndromes_powerSum hα ht hr hroot hrecd (m := m) h1 h8
  generalize hEdef : (Finset.range 31).filter (fun j => c j ≠ r j) = E at herr hsyn
  have hE : ∀ j ∈ E, j < 31 := fun j hj => by
    rw [← hEdef] at hj
    exact Finset.mem_range.1 (Finset.mem_filter.1 hj).1
  have hy : ∀ j ∈ E, ofPoly α (c j) + ofPoly α (r j) ≠ 0 := fun j hj h0 => by
    rw [← hEdef] at hj
    obtain ⟨hj, hne⟩ := Finset.mem_filter.1 hj
    have hj := Finset.mem_range.1 hj
    refine hne (ofPoly_inj hα (hc j hj) (hr j hj) ?_)
    rwa [← CharTwo.sub_eq_add, sub_eq_zero] at h0
  have htr : Tables (syndromes rs).2 := by rw [hframe]; exact ht.of_eq rfl rfl
  have hS : Syndromes α (powerSum E (α ^ ·) fun j => ofPoly α (c j) + ofPoly α (r j)) (syndromes rs).2 :=
    fun n h1 h8 => by
      obtain ⟨hsym, hval⟩ := hsyn n h1 h8
      simp only [hframe]
      rw [hs n h1 h8]
      exact ⟨ht.log_idx hsym, by rw [ht.log_spec hα hsym, hval]⟩
  have hrd : ∀ j < 31, Idx ((syndromes rs).2.recd j) ∧ ofIndex α ((syndromes rs).2.recd j) = ofPoly α (r j) :=
    fun j hj => by
      simp only [hframe]
      rw [hrecd j hj]
      exact ⟨ht.log_idx (hr j hj), ht.log_spec hα (hr j hj)⟩
  have hpair : syndromes rs = ((syndromes rs).1, (syndromes rs).2) := rfl
  generalize (syndromes rs).2 = r1 at htr hS hrd hpair
  by_cases hsyn0 : (syndromes rs).1 = true
  · obtain ⟨h9, hl, hcount, hlg, hloc⟩ := located hα htr hS hE herr hy
    rw [hsyn0] at hpair
    obtain ⟨d, elp, l, u_lu, hframe2⟩ := findLocator_frame r1
    rcases hf : findLocator r1 with ⟨u, r2⟩
    simp only [hf] at h9 hl hcount hlg hloc hframe2
    subst h9
    obtain ⟨elp', reg, root, loc, hframe3⟩ := findRoots_frame 9 r2
    rcases hg : findRoots 9 r2 with ⟨count, r3⟩
    simp only [hg] at hcount hlg hloc hframe3
    rw [decode_corrected hpair hf (by rw [hl]; exact herr) hg (by rw [hcount, hlg])]
    have hfr : (formEvaluator 9 r3).recd = r1.recd := by
      simp only [formEvaluator]
      rw [hframe3, hframe2]
    obtain ⟨hsym, hval⟩ := correctErrors_spec hα hloc (fun j hj => by rw [hfr]; exact (hrd j hj).1) hj
    refine ofPoly_inj hα hsym (hc j hj) ?_
    rw [hval, hfr, (hrd j hj).2]
    by_cases hjE : j ∈ E
    · rw [if_pos hjE, add_left_comm, CharTwo.add_self_eq_zero, add_zero]
    · rw [if_neg hjE, add_zero]
      rw [← hEdef, Finset.mem_filter, not_and, not_not] at hjE
      rw [hjE (Finset.mem_range.2 hj)]
  · -- no syndrome: a word that is not the code word has one
    rw [Bool.not_eq_true] at hsyn0
    rw [hsyn0] at hpair
    rw [decode_clean hpair]
    have hz : ∀ m, 1 ≤ m → m ≤ 8 → powerSum E (α ^ ·) (fun j => ofPoly α (c j) + ofPoly α (r j)) m = 0 :=
      fun m h1 h8 => by
        obtain ⟨-, hval⟩ := hsyn m h1 h8
        rw [← hval]
        by_contra hne
        have := hflag.2 ⟨m, h1, h8, fun h0 => hne (by rw [h0, ofPoly_zero])⟩
        rw [hsyn0] at this
        exact Bool.false_ne_true this
    have hempty : j ∉ E := fun hjE => hy j hjE (values_eq_zero (fun k _ => alpha_pow_ne_zero hα k)
      (alpha_pow_injOn hα hE) (fun m h1 hm => hz m h1 (by omega)) hjE)
    obtain ⟨hsym, hval⟩ := toPolynomial_spec hα _ htr (fun j hj => (hrd j hj).1) hj
    refine ofPoly_inj hα hsym (hc j hj) ?_
    rw [hval, (hrd j hj).2]
    rw [← hEdef, Finset.mem_filter, not_and, not_not] at hempty
    rw [hempty (Finset.mem_range.2 hj)]

end Decode

end ReedSolomon

end Undertone
