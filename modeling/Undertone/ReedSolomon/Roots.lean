import Undertone.Lib.Locator
import Undertone.ReedSolomon.Berlekamp

/-!
# The root search

Before round `i` the registers hold the terms of the locator at `α^(i-1)`; the round multiplies each by its power of
`α` and the sum is the value of the locator at `α^i` (`searchRound_spec`). The search therefore lists, in ascending
order, the exponents `1, ..., 31` of its roots (`findRoots_spec`), and the locator of the positions `E` has the roots
`α^(31-j)`, `j ∈ E` (`eval_locator_pow`).
-/

namespace Undertone

open CountedLoop

namespace ReedSolomon

/-! ## The list of roots -/

/-- What the search has listed when it is about to try `α^i`. -/
structure Listed (root loc : ℕ → ℕ) (count i : ℕ) (isRoot : ℕ → Prop) : Prop where
  sound : ∀ k < count, 1 ≤ root k ∧ root k < i ∧ isRoot (root k) ∧ loc k = nn - root k
  mono : ∀ k < count, ∀ k' < k, root k' < root k
  complete : ∀ i', 1 ≤ i' → i' < i → isRoot i' → ∃ k < count, root k = i'

theorem Listed.found {root loc : ℕ → ℕ} {count i : ℕ} {isRoot : ℕ → Prop} (h : Listed root loc count i isRoot)
    (hi : 1 ≤ i) (hr : isRoot i) :
    Listed (Function.update root count i) (Function.update loc count (nn - i)) (count + 1) (i + 1) isRoot where
  sound k hk := by
    rcases Nat.lt_or_eq_of_le (Nat.le_of_lt_succ hk) with hlt | rfl
    · obtain ⟨h1, h2, h3, h4⟩ := h.sound k hlt
      rw [Function.update_of_ne (by omega), Function.update_of_ne (by omega)]
      exact ⟨h1, by omega, h3, h4⟩
    · rw [Function.update_self, Function.update_self]
      exact ⟨hi, by omega, hr, rfl⟩
  mono k hk k' hk' := by
    rcases Nat.lt_or_eq_of_le (Nat.le_of_lt_succ hk) with hlt | rfl
    · rw [Function.update_of_ne (by omega), Function.update_of_ne (by omega)]
      exact h.mono k hlt k' hk'
    · rw [Function.update_self, Function.update_of_ne (by omega)]
      exact (h.sound k' hk').2.1
  complete i' h1 h2 hr' := by
    rcases Nat.lt_or_eq_of_le (Nat.le_of_lt_succ h2) with hlt | rfl
    · obtain ⟨k, hk, he⟩ := h.complete i' h1 hlt hr'
      exact ⟨k, by omega, by rw [Function.update_of_ne (by omega), he]⟩
    · exact ⟨count, by omega, Function.update_self _ _ _⟩

theorem Listed.skip {root loc : ℕ → ℕ} {count i : ℕ} {isRoot : ℕ → Prop} (h : Listed root loc count i isRoot)
    (hr : ¬ isRoot i) : Listed root loc count (i + 1) isRoot where
  sound k hk := by
    obtain ⟨h1, h2, h3, h4⟩ := h.sound k hk
    exact ⟨h1, by omega, h3, h4⟩
  mono := h.mono
  complete i' h1 h2 hr' := by
    rcases Nat.lt_or_eq_of_le (Nat.le_of_lt_succ h2) with hlt | rfl
    · exact h.complete i' h1 hlt hr'
    · exact absurd hr' hr

/-- A complete list of the roots of the locator has one entry for each position. -/
theorem Listed.card {E : Finset ℕ} {root loc : ℕ → ℕ} {count : ℕ} {isRoot : ℕ → Prop}
    (h : Listed root loc count 32 isRoot)
    (hE : ∀ j ∈ E, j < 31) (hroot : ∀ i, 1 ≤ i → i ≤ 31 → (isRoot i ↔ nn - i ∈ E)) :
    count = E.card ∧ (∀ k < count, loc k ∈ E) ∧ (∀ k < count, ∀ k' < count, loc k = loc k' → k = k') ∧
      (∀ j ∈ E, ∃ k < count, loc k = j) ∧ ∀ k < count, root k + loc k = 31 := by
  have hmem : ∀ k < count, loc k ∈ E := fun k hk => by
    obtain ⟨h1, h2, h3, h4⟩ := h.sound k hk
    rw [h4]
    exact (hroot _ h1 (by omega)).1 h3
  have hsum : ∀ k < count, root k + loc k = 31 := fun k hk => by
    obtain ⟨h1, h2, -, h4⟩ := h.sound k hk
    rw [h4, nn_eq]
    omega
  have hinj : ∀ k < count, ∀ k' < count, loc k = loc k' → k = k' := fun k hk k' hk' he => by
    have h1 := hsum k hk
    have h2 := hsum k' hk'
    rcases Nat.lt_trichotomy k k' with hlt | heq | hgt
    · have := h.mono k' hk' k hlt
      omega
    · exact heq
    · have := h.mono k hk k' hgt
      omega
  have hsurj : ∀ j ∈ E, ∃ k < count, loc k = j := fun j hj => by
    have hj31 := hE j hj
    obtain ⟨k, hk, he⟩ := h.complete (31 - j) (by omega) (by omega)
      ((hroot _ (by omega) (by omega)).2 (by rw [nn_eq, Nat.sub_sub_self hj31.le]; exact hj))
    have := hsum k hk
    exact ⟨k, hk, by omega⟩
  refine ⟨?_, hmem, hinj, hsurj, hsum⟩
  rw [← Finset.card_range count]
  exact Finset.card_bij (fun k _ => loc k) (fun k hk => hmem k (Finset.mem_range.1 hk))
    (fun k hk k' hk' => hinj k (Finset.mem_range.1 hk) k' (Finset.mem_range.1 hk'))
    fun j hj => by
      obtain ⟨k, hk, he⟩ := hsurj j hj
      exact ⟨k, Finset.mem_range.2 hk, he⟩

section Roots

variable {K : Type*} [Field K] {α : K}

/-! ## The search -/

/-- The value at `x` of the row in `elp[u]`, in index form, with `1` for its lowest coefficient. -/
def rowValue (α : K) (rs : ReedSolomon) (u : ℕ) (x : K) : K :=
  1 + ∑ j ∈ Finset.Ico 1 (rs.l u + 1), ofIndex α (rs.elp u j) * x ^ j

variable [CharP K 2] (hα : α ^ 5 = α ^ 2 + 1)

include hα

/-- Reduction modulo 31 of an exponent. -/
theorem ofIndex_tmod {e : ℤ} (he : 0 ≤ e) (n : ℕ) :
    Idx ((e + n).tmod nn) ∧ (e + n).tmod nn ≠ -1 ∧ ofIndex α ((e + n).tmod nn) = ofIndex α e * α ^ n := by
  have h1 : (e + n).tmod nn = (e + n) % 31 := by
    simpa using Int.tmod_eq_emod_of_nonneg (show 0 ≤ e + n by omega)
  rw [h1]
  refine ⟨⟨by omega, by omega⟩, by omega, ?_⟩
  rw [ofIndex_of_nonneg (by omega), ofIndex_of_nonneg he, ← pow_add,
    show ((e + n) % 31).toNat = (e.toNat + n) % 31 by omega, alpha_pow_mod hα]

/-- A round takes the registers from `α^i` to `α^(i+1)` and returns the value of the polynomial there. -/
theorem searchRound_spec (rs : ReedSolomon) (ht : Tables rs) (c : ℕ → K) (lu i : ℕ) {reg : ℕ → ℤ}
    (hreg : ∀ j, 1 ≤ j → j ≤ lu → Idx (reg j) ∧ ofIndex α (reg j) = c j * (α ^ i) ^ j) :
    Sym (searchRound rs lu reg).1 ∧
      ofPoly α (searchRound rs lu reg).1 = 1 + ∑ j ∈ Finset.Ico 1 (lu + 1), c j * (α ^ (i + 1)) ^ j ∧
      ∀ j, 1 ≤ j → j ≤ lu →
        Idx ((searchRound rs lu reg).2 j) ∧ ofIndex α ((searchRound rs lu reg).2 j) = c j * (α ^ (i + 1)) ^ j := by
  have h := forUp_rule (a := 1) (b := lu + 1) (s := ((1 : ℤ), reg))
    (f := fun j (st : ℤ × (ℕ → ℤ)) => if st.2 j ≠ -1 then
      (Int.xor st.1 (rs.alpha_to (Function.update st.2 j ((st.2 j + j).tmod nn) j).toNat),
        Function.update st.2 j ((st.2 j + j).tmod nn)) else (st.1, st.2))
    (fun j st => Sym st.1 ∧ ofPoly α st.1 = 1 + ∑ k ∈ Finset.Ico 1 j, c k * (α ^ (i + 1)) ^ k ∧
      (∀ k, 1 ≤ k → k < j → Idx (st.2 k) ∧ ofIndex α (st.2 k) = c k * (α ^ (i + 1)) ^ k) ∧
      ∀ k, j ≤ k → st.2 k = reg k) (by omega) ?_ ?_
  · exact ⟨h.1, h.2.1, fun j h1 h2 => h.2.2.1 j h1 (Nat.lt_succ_of_le h2)⟩
  · refine ⟨sym_one, by simp, fun k h1 h2 => by omega, fun k _ => rfl⟩
  · rintro j ⟨q, b⟩ hj hjl ⟨hq, hsum, hdone, hrest⟩
    simp only at hq hsum hdone hrest ⊢
    obtain ⟨hidx, hval⟩ := hreg j hj (by omega)
    rw [hrest j (le_refl j), Finset.sum_Ico_succ_top hj, ← add_assoc, ← hsum]
    have hpow : c j * (α ^ (i + 1)) ^ j = ofIndex α (reg j) * α ^ j := by
      rw [hval, pow_succ, mul_pow, mul_assoc]
    by_cases h0 : reg j = -1
    · rw [if_neg (not_not.2 h0)]
      have hz : c j * (α ^ (i + 1)) ^ j = 0 := by rw [hpow, h0, ofIndex_neg_one, zero_mul]
      refine ⟨hq, by rw [hz, add_zero], fun k h1 h2 => ?_, fun k hk => hrest k (by omega)⟩
      rcases Nat.lt_or_eq_of_le (Nat.le_of_lt_succ h2) with hlt | rfl
      · exact hdone k h1 hlt
      · simp only
        rw [hrest k (le_refl k), h0, hz, ofIndex_neg_one]
        exact ⟨by decide, rfl⟩
    · obtain ⟨k1, k2, k3⟩ := ofIndex_tmod hα (show 0 ≤ reg j by have := hidx.1; omega) j
      have hnn : 0 ≤ (reg j + j).tmod nn := by have := k1.1; omega
      have hs := ht.alpha_sym hnn k1.2
      rw [if_pos h0]
      simp only [Function.update_self]
      refine ⟨hq.xor hs, ?_, fun k h1 h2 => ?_, fun k hk => ?_⟩
      · rw [ofPoly_xor hq hs, ht.alpha_spec hα hnn k1.2, k3, hpow]
      · rcases Nat.lt_or_eq_of_le (Nat.le_of_lt_succ h2) with hlt | rfl
        · rw [Function.update_of_ne (by omega)]
          exact hdone k h1 hlt
        · rw [Function.update_self, hpow]
          exact ⟨k1, k3⟩
      · rw [Function.update_of_ne (by omega)]
        exact hrest k (by omega)

/-- The search before round `i`, for the polynomial `1 + c 1 x + ... + c lu x^lu`. -/
structure Searched (α : K) (c : ℕ → K) (lu i : ℕ) (st : ℕ × (ℕ → ℤ) × (ℕ → ℕ) × (ℕ → ℕ)) : Prop where
  reg : ∀ j, 1 ≤ j → j ≤ lu → Idx (st.2.1 j) ∧ ofIndex α (st.2.1 j) = c j * (α ^ (i - 1)) ^ j
  listed : Listed st.2.2.1 st.2.2.2 st.1 i fun i => 1 + ∑ j ∈ Finset.Ico 1 (lu + 1), c j * (α ^ i) ^ j = 0

/-- The body of the search. -/
def searchStep (rs : ReedSolomon) (lu i : ℕ) (st : ℕ × (ℕ → ℤ) × (ℕ → ℕ) × (ℕ → ℕ)) :
    ℕ × (ℕ → ℤ) × (ℕ → ℕ) × (ℕ → ℕ) :=
  if (searchRound rs lu st.2.1).1 = 0 then
    (st.1 + 1, (searchRound rs lu st.2.1).2, Function.update st.2.2.1 st.1 i, Function.update st.2.2.2 st.1 (nn - i))
  else (st.1, (searchRound rs lu st.2.1).2, st.2.2.1, st.2.2.2)

omit [CharP K 2] hα in
theorem searched_init (cell : ℕ → ℤ) {lu : ℕ} (hcell : ∀ j ≤ lu, Idx (cell j)) (reg : ℕ → ℤ) (root loc : ℕ → ℕ) :
    Searched α (fun j => ofIndex α (cell j)) lu 1
      (0, forUp 1 (lu + 1) (fun i reg => Function.update reg i (cell i)) reg, root, loc) := by
  refine ⟨fun j h1 h2 => ?_, fun k hk => absurd hk (by simp), fun k hk => absurd hk (by simp), fun i' h1 h2 => by omega⟩
  simp only [forUp_fill 1 (lu + 1) cell]
  rw [if_pos ⟨h1, Nat.lt_succ_of_le h2⟩, Nat.sub_self, pow_zero, one_pow, mul_one]
  exact ⟨hcell j h2, rfl⟩

theorem Searched.step {rs : ReedSolomon} (ht : Tables rs) {c : ℕ → K} {lu i : ℕ} {st : ℕ × (ℕ → ℤ) × (ℕ → ℕ) × (ℕ → ℕ)}
    (h : Searched α c lu i st) (hi : 1 ≤ i) : Searched α c lu (i + 1) (searchStep rs lu i st) := by
  obtain ⟨hq, hval, hreg⟩ := searchRound_spec hα rs ht c lu (i - 1) h.reg
  rw [Nat.sub_add_cancel hi] at hval hreg
  unfold searchStep
  by_cases hz : (searchRound rs lu st.2.1).1 = 0
  · rw [if_pos hz]
    rw [hz, ofPoly_zero] at hval
    exact ⟨hreg, h.listed.found hi hval.symm⟩
  · rw [if_neg hz]
    exact ⟨hreg, h.listed.skip fun hr => hz (ofPoly_eq_zero hα hq (hval.trans hr))⟩

/-- The search lists no more roots than the polynomial can have. -/
theorem Searched.count_le {c : ℕ → K} {lu i : ℕ} {st : ℕ × (ℕ → ℤ) × (ℕ → ℕ) × (ℕ → ℕ)}
    (h : Searched α c lu i st) (hi : i ≤ 32) : st.1 ≤ lu := by
  classical
  have hinj : Set.InjOn (fun k => α ^ st.2.2.1 k) (Finset.range st.1 : Set ℕ) := fun k hk k' hk' he => by
    have hk := Finset.mem_range.1 hk
    have hk' := Finset.mem_range.1 hk'
    have he : α ^ st.2.2.1 k = α ^ st.2.2.1 k' := he
    rw [← alpha_pow_mod hα (st.2.2.1 k), ← alpha_pow_mod hα (st.2.2.1 k')] at he
    have hmod := alpha_pow_inj hα (Nat.mod_lt _ (by omega)) (Nat.mod_lt _ (by omega)) he
    obtain ⟨h1, h2, -, -⟩ := h.listed.sound k hk
    obtain ⟨h1', h2', -, -⟩ := h.listed.sound k' hk'
    rcases Nat.lt_trichotomy k k' with hlt | heq | hgt
    · have := h.listed.mono k' hk' k hlt
      omega
    · exact heq
    · have := h.listed.mono k hk k' hgt
      omega
  rw [← Finset.card_range st.1, ← Finset.card_image_of_injOn hinj]
  refine Locator.card_le_of_roots (c := fun j => if j = 0 then 1 else c j) rfl fun x hx => ?_
  obtain ⟨k, hk, rfl⟩ := Finset.mem_image.1 hx
  have hroot := (h.listed.sound k (Finset.mem_range.1 hk)).2.2.1
  rw [Locator.eval_rowPoly, Finset.range_eq_Ico, Finset.sum_eq_sum_Ico_succ_bot (Nat.succ_pos _), if_pos rfl, pow_zero,
    mul_one, ← hroot]
  refine congrArg (1 + ·) (Finset.sum_congr rfl fun j hj => ?_)
  have := (Finset.mem_Ico.1 hj).1
  rw [if_neg (by omega)]

omit [CharP K 2] hα in
theorem findRoots_frame (u : ℕ) (rs : ReedSolomon) :
    ∃ elp reg root loc, (findRoots u rs).2 = { rs with elp := elp, reg := reg, root := root, loc := loc } :=
  ⟨_, _, _, _, rfl⟩

omit [Field K] [CharP K 2] hα in
/-- The loop that puts row `u` into index form. -/
theorem indexCells (rs : ReedSolomon) (u n k : ℕ) :
    forUp 0 n (fun i elp => set2 elp u i (rs.log (elp u i))) rs.elp u k =
      if k < n then rs.log (rs.elp u k) else rs.elp u k := by
  refine forUp_rule (P := fun n (elp : ℕ → ℕ → ℤ) => ∀ k, elp u k = if k < n then rs.log (rs.elp u k) else rs.elp u k)
    (Nat.zero_le n) (fun k => by rw [if_neg (by omega)]) ?_ k
  intro i elp _ _ h k
  rw [set2_apply, h i, if_neg (Nat.lt_irrefl i)]
  by_cases hk : k = i
  · subst hk
    simp
  · have hlt : k < i + 1 ↔ k < i := by omega
    simp [hk, hlt, h k]

/-- The exponents of the roots are listed in ascending order. -/
theorem findRoots_spec {rs : ReedSolomon} (ht : Tables rs) {u : ℕ} (hs : ∀ j ≤ rs.l u, Sym (rs.elp u j)) :
    (∀ j ≤ rs.l u, (findRoots u rs).2.elp u j = rs.log (rs.elp u j)) ∧
      Listed (findRoots u rs).2.root (findRoots u rs).2.loc (findRoots u rs).1 32
        fun i => rowValue α (findRoots u rs).2 u (α ^ i) = 0 := by
  refine ⟨fun j hj => ?_, ?_⟩
  · simp only [findRoots]
    rw [indexCells, if_pos (Nat.lt_succ_of_le hj)]
  · simp only [findRoots, rowValue]
    generalize hE : forUp 0 (rs.l u + 1) (fun i elp => set2 elp u i (rs.log (elp u i))) rs.elp = E
    have hcell : ∀ j ≤ rs.l u, Idx (E u j) := fun j hj => by
      rw [← hE, indexCells, if_pos (Nat.lt_succ_of_le hj)]
      exact ht.log_idx (hs j hj)
    have htE : Tables { rs with elp := E } := ht.of_eq rfl rfl
    exact (forUp_rule (Searched α (fun j => ofIndex α (E u j)) (rs.l u)) (show 1 ≤ nn + 1 by omega)
      (searched_init (E u) hcell rs.reg rs.root rs.loc) fun i st h1 _ h => h.step hα htE h1).listed

/-- The roots of the locator are the inverses of its positions. -/
theorem eval_locator_pow {E : Finset ℕ} (hE : ∀ j ∈ E, j < 31) {i : ℕ} (h1 : 1 ≤ i) (h31 : i ≤ 31) :
    (Locator.locator E (α ^ ·)).eval (α ^ i) = 0 ↔ nn - i ∈ E := by
  have hpow : ∀ j < 31, α ^ j * α ^ i = 1 ↔ j = 31 - i := fun j hj => by
    rw [← pow_add, ← alpha_pow_mod hα (j + i)]
    constructor
    · intro h
      have h0 : (j + i) % 31 = 0 := alpha_pow_inj hα (by omega) (by omega) (by rw [h, pow_zero])
      omega
    · rintro rfl
      rw [Nat.sub_add_cancel h31, Nat.mod_self, pow_zero]
  rw [Locator.eval_locator, Finset.prod_eq_zero_iff]
  constructor
  · rintro ⟨j, hj, h0⟩
    rw [nn_eq, ← (hpow j (hE j hj)).1 (sub_eq_zero.1 h0).symm]
    exact hj
  · intro hmem
    exact ⟨nn - i, hmem, by rw [(hpow _ (hE _ hmem)).2 rfl, sub_self]⟩

end Roots

end ReedSolomon

end Undertone
