import Undertone.Lib.Recurrence
import Undertone.ReedSolomon.Tables

/-!
# Syndromes and the Berlekamp iteration

The rows of `elp` below the current one are in index form, the current one is in polynomial form; read in the field
(`cells`) they are a table of shortest recurrences of the syndromes (`Rows`), and one round of the loop makes it a
table with one row more as long as the new row fits into eight cells (`Rows.step`). The syndromes of a word with at
most four errors have a recurrence of length at most four, so the loop runs all of its rounds (`findLocator_spec`);
on any syndromes, a loop that ends with a row of length at most four has run all of them (`findLocator_rows`).
-/

namespace Undertone

open CountedLoop Recurrence

namespace ReedSolomon

theorem Tables.of_eq {rs rs' : ReedSolomon} (ht : Tables rs) (h1 : rs'.alpha_to = rs.alpha_to)
    (h2 : rs'.index_of = rs.index_of) : Tables rs' :=
  ⟨by rw [h1]; exact ht.alpha, by rw [h2]; exact ht.index, by rw [h2]; exact ht.index_zero⟩

/-! ## Cells of the table -/

theorem copyCells (rs : ReedSolomon) (u n : ℕ) (p k : ℕ) :
    forUp 0 n (fun i elp =>
      let elp := set2 elp (u + 1) i (elp u i)
      set2 elp u i (rs.log (elp u i))) rs.elp p k =
      if k < n ∧ p = u + 1 then rs.elp u k else if k < n ∧ p = u then rs.log (rs.elp u k) else rs.elp p k := by
  refine forUp_rule (P := fun n (elp : ℕ → ℕ → ℤ) => ∀ p k, elp p k =
    if k < n ∧ p = u + 1 then rs.elp u k else if k < n ∧ p = u then rs.log (rs.elp u k) else rs.elp p k)
    (Nat.zero_le n) (fun p k => by simp) ?_ p k
  intro i elp _ _ h p k
  have hu : elp u i = rs.elp u i := by rw [h]; simp
  simp only [set2_apply, hu, h p k]
  by_cases hk : k = i
  · subst hk
    by_cases h1 : p = u + 1
    · simp [h1]
    · by_cases h2 : p = u
      · simp [h2]
      · simp [h1, h2]
  · have hlt : k < i + 1 ↔ k < i := by omega
    simp [hk, hlt]

theorem clearCells (u n : ℕ) (elp : ℕ → ℕ → ℤ) (p k : ℕ) :
    forUp 0 n (fun i elp => set2 elp u i 0) elp p k = if k < n ∧ p = u then 0 else elp p k := by
  refine forUp_rule (P := fun n (e : ℕ → ℕ → ℤ) => ∀ p k, e p k = if k < n ∧ p = u then 0 else elp p k)
    (Nat.zero_le n) (fun p k => by simp) ?_ p k
  intro i e _ _ h p k
  simp only [set2_apply, h p k]
  by_cases hk : k = i
  · subst hk
    simp
  · have hlt : k < i + 1 ↔ k < i := by omega
    simp [hk, hlt]

/-- The selected row, shifted and scaled, in the cells of the new row. -/
theorem scaleCells (rs : ReedSolomon) {u q : ℕ} (hq : q < u) (n : ℕ) (elp : ℕ → ℕ → ℤ) (p k : ℕ) :
    forUp 0 n (fun i elp =>
      if elp q i ≠ -1 then set2 elp (u + 1) (i + u - q) (rs.exp (rs.d u + nn - rs.d q + elp q i)) else elp) elp p k =
      if p = u + 1 ∧ u - q ≤ k ∧ k < u - q + n ∧ elp q (k - (u - q)) ≠ -1 then
        rs.exp (rs.d u + nn - rs.d q + elp q (k - (u - q)))
      else elp p k := by
  refine forUp_rule (P := fun n (e : ℕ → ℕ → ℤ) => ∀ p k, e p k =
    if p = u + 1 ∧ u - q ≤ k ∧ k < u - q + n ∧ elp q (k - (u - q)) ≠ -1 then
      rs.exp (rs.d u + nn - rs.d q + elp q (k - (u - q))) else elp p k)
    (Nat.zero_le n) (fun p k => by rw [if_neg (by omega)]) ?_ p k
  intro i e _ _ h p k
  have hqi : e q i = elp q i := by rw [h, if_neg (by omega)]
  have hi : i + u - q = u - q + i := by omega
  by_cases hk : p = u + 1 ∧ k = u - q + i
  · obtain ⟨rfl, rfl⟩ := hk
    have hsub : u - q + i - (u - q) = i := by omega
    by_cases hne : elp q i ≠ -1
    · rw [if_pos (by rwa [hqi]), set2_apply, hi, if_pos ⟨rfl, rfl⟩, hqi, hsub,
        if_pos ⟨rfl, by omega, by omega, hne⟩]
    · rw [if_neg (by rwa [hqi]), h, hsub, if_neg (fun hc => hne hc.2.2.2), if_neg (fun hc => hne hc.2.2.2)]
  · have hsame : (if e q i ≠ -1 then set2 e (u + 1) (i + u - q) (rs.exp (rs.d u + nn - rs.d q + e q i)) else e) p k =
        e p k := by
      split
      · rw [set2_apply, if_neg (by omega)]
      · rfl
    have hiff : (p = u + 1 ∧ u - q ≤ k ∧ k < u - q + (i + 1) ∧ elp q (k - (u - q)) ≠ -1) ↔
        (p = u + 1 ∧ u - q ≤ k ∧ k < u - q + i ∧ elp q (k - (u - q)) ≠ -1) := by
      constructor
      · rintro ⟨h1, h2, h3, h4⟩
        exact ⟨h1, h2, by omega, h4⟩
      · rintro ⟨h1, h2, h3, h4⟩
        exact ⟨h1, h2, by omega, h4⟩
    rw [hsame, h p k]
    simp only [hiff]

/-- The last loop of `combineRow`: row `u` is added to row `u + 1` and put into index form. -/
theorem addCells (rs : ReedSolomon) (u n : ℕ) (elp : ℕ → ℕ → ℤ) (p k : ℕ) :
    forUp 0 n (fun i elp =>
      let elp := set2 elp (u + 1) i (Int.xor (elp (u + 1) i) (elp u i))
      set2 elp u i (rs.log (elp u i))) elp p k =
      if k < n ∧ p = u + 1 then Int.xor (elp (u + 1) k) (elp u k)
      else if k < n ∧ p = u then rs.log (elp u k) else elp p k := by
  refine forUp_rule (P := fun n (e : ℕ → ℕ → ℤ) => ∀ p k, e p k =
    if k < n ∧ p = u + 1 then Int.xor (elp (u + 1) k) (elp u k)
    else if k < n ∧ p = u then rs.log (elp u k) else elp p k)
    (Nat.zero_le n) (fun p k => by simp) ?_ p k
  intro i e _ _ h p k
  have hu : e u i = elp u i := by rw [h]; simp
  have hu1 : e (u + 1) i = elp (u + 1) i := by rw [h]; simp
  simp only [set2_apply, hu, hu1, h p k]
  by_cases hk : k = i
  · subst hk
    by_cases h1 : p = u + 1
    · simp [h1]
    · by_cases h2 : p = u
      · simp [h2]
      · simp [h1, h2]
  · have hlt : k < i + 1 ↔ k < i := by omega
    simp [hk, hlt]

/-- The scaled cell of row `q` that falls on cell `k` of row `u + 1`, or zero. -/
def scaled (rs : ReedSolomon) (u q k : ℕ) : ℤ :=
  if u - q ≤ k ∧ k < u - q + (rs.l q + 1) ∧ rs.elp q (k - (u - q)) ≠ -1 then
    rs.exp (rs.d u + nn - rs.d q + rs.elp q (k - (u - q)))
  else 0

theorem combineRow_elp (rs : ReedSolomon) {u q : ℕ} (hq : q < u) (p : ℕ) {k : ℕ} (hk : k < 8) :
    (combineRow u q rs).elp p k =
      if p = u + 1 then if k < rs.l u + 1 then Int.xor (scaled rs u q k) (rs.elp u k) else scaled rs u q k
      else if p = u ∧ k < rs.l u + 1 then rs.log (rs.elp u k) else rs.elp p k := by
  have hclear : ∀ p k, p ≠ u + 1 →
      forUp 0 (nn - kk) (fun i elp => set2 elp (u + 1) i 0) rs.elp p k = rs.elp p k := fun p k hp => by
    rw [clearCells, if_neg (fun h => hp h.2)]
  have hzero : forUp 0 (nn - kk) (fun i elp => set2 elp (u + 1) i 0) rs.elp (u + 1) k = 0 := by
    rw [clearCells, if_pos ⟨hk, rfl⟩]
  simp only [combineRow]
  rw [addCells, scaleCells rs hq, scaleCells rs hq, scaleCells rs hq]
  generalize forUp 0 (nn - kk) (fun i elp => set2 elp (u + 1) i 0) rs.elp = E at hclear hzero ⊢
  simp only [hclear q _ (show q ≠ u + 1 by omega), hclear u _ (show u ≠ u + 1 by omega), hzero]
  by_cases h1 : p = u + 1
  · subst h1
    simp [scaled, hzero]
  · simp [h1, hclear p k h1, and_comm]

theorem copyRow_elp (rs : ReedSolomon) (u p k : ℕ) :
    (copyRow u rs).elp p k =
      if p = u + 1 ∧ k < rs.l u + 1 then rs.elp u k
      else if p = u ∧ k < rs.l u + 1 then rs.log (rs.elp u k) else rs.elp p k := by
  simp only [copyRow]
  rw [copyCells]
  simp only [and_comm]

/-! ## The choice of the row to add -/

theorem lastNonzero_spec {d : ℕ → ℤ} (h0 : d 0 ≠ -1) :
    ∀ n, lastNonzero d n ≤ n ∧ d (lastNonzero d n) ≠ -1 ∧ ∀ j ≤ n, d j ≠ -1 → j ≤ lastNonzero d n
  | 0 => ⟨le_refl _, h0, fun j hj _ => hj⟩
  | n + 1 => by
    rw [lastNonzero]
    by_cases hn : d (n + 1) = -1
    · obtain ⟨h1, h2, h3⟩ := lastNonzero_spec h0 n
      rw [if_pos hn]
      refine ⟨by omega, h2, fun j hj hne => h3 j ?_ hne⟩
      rcases Nat.lt_or_eq_of_le hj with h | rfl
      · omega
      · exact absurd hn hne
    · rw [if_neg hn]
      exact ⟨le_refl _, hn, fun j hj _ => hj⟩

/-- The selected row precedes `u`, has a discrepancy, and has the greatest `u_lu` among those that do. -/
theorem selectRow_spec (rs : ReedSolomon) {u : ℕ} (hu : 1 ≤ u) (h0 : rs.d 0 ≠ -1) :
    selectRow rs u < u ∧ rs.d (selectRow rs u) ≠ -1 ∧
      ∀ j < u, rs.d j ≠ -1 → rs.u_lu j ≤ rs.u_lu (selectRow rs u) := by
  obtain ⟨h1, h2, h3⟩ := lastNonzero_spec h0 (u - 1)
  unfold selectRow
  simp only
  generalize lastNonzero rs.d (u - 1) = q0 at *
  by_cases hq : q0 > 0
  · rw [if_pos hq]
    have hscan := forDown_rule (a := 0) (b := q0) (s := q0)
      (f := fun j q => if rs.d j ≠ -1 ∧ rs.u_lu q < rs.u_lu j then j else q)
      (fun i q => q ≤ q0 ∧ rs.d q ≠ -1 ∧ ∀ j ≤ q0, i ≤ j → rs.d j ≠ -1 → rs.u_lu j ≤ rs.u_lu q)
      (Nat.zero_le _) ⟨le_refl _, h2, fun j hj hij _ => by rw [Nat.le_antisymm hj hij]⟩ ?_
    · obtain ⟨k1, k2, k3⟩ := hscan
      exact ⟨by omega, k2, fun j hj hne => k3 j (h3 j (by omega) hne) (Nat.zero_le _) hne⟩
    · rintro i q - hi ⟨k1, k2, k3⟩
      by_cases hc : rs.d i ≠ -1 ∧ rs.u_lu q < rs.u_lu i
      · rw [if_pos hc]
        refine ⟨by omega, hc.1, fun j hj hij hne => ?_⟩
        rcases Nat.lt_or_eq_of_le hij with h | rfl
        · exact (k3 j hj (by omega) hne).trans hc.2.le
        · exact le_refl _
      · rw [if_neg hc]
        refine ⟨k1, k2, fun j hj hij hne => ?_⟩
        rcases Nat.lt_or_eq_of_le hij with h | rfl
        · exact k3 j hj (by omega) hne
        · exact not_lt.1 fun hlt => hc ⟨hne, hlt⟩
  · rw [if_neg hq]
    refine ⟨by omega, h2, fun j hj hne => ?_⟩
    have := h3 j (by omega) hne
    rw [show j = q0 by omega]

/-! ## Syndromes -/

section Values

variable {K : Type*} [Field K] [CharP K 2] {α : K} (hα : α ^ 5 = α ^ 2 + 1)

include hα

theorem syndrome_spec {rs : ReedSolomon} (ht : Tables rs) (hr : ∀ j < 31, Idx (rs.recd j)) (i : ℕ) :
    Sym (rs.syndrome i) ∧
      ofPoly α (rs.syndrome i) = ∑ j ∈ Finset.range 31, ofIndex α (rs.recd j) * (α ^ j) ^ i := by
  have h := forUp_sum (a := 0) (b := nn) (s := (0 : ℤ))
    (f := fun (j : ℕ) v => if rs.recd j ≠ -1 then Int.xor v (rs.exp (rs.recd j + i * j)) else v)
    Sym (ofPoly α) (fun j => ofIndex α (rs.recd j) * (α ^ j) ^ i) (Nat.zero_le _) sym_zero ?_
  · rw [ofPoly_zero, zero_add, ← Finset.range_eq_Ico] at h
    exact h
  · intro j v _ hj hv
    have hterm := ht.add_term hα hv (hr j hj) (i * j)
    rw [Nat.cast_mul] at hterm
    rw [← pow_mul, mul_comm j i]
    exact hterm

end Values

theorem syndromes_spec (rs : ReedSolomon) :
    ((syndromes rs).1 = true ↔ ∃ n, 1 ≤ n ∧ n ≤ 8 ∧ rs.syndrome n ≠ 0) ∧
      ∃ s, (syndromes rs).2 = { rs with s := s } ∧ ∀ n, 1 ≤ n → n ≤ 8 → s n = rs.log (rs.syndrome n) := by
  have h := forUp_rule (a := 1) (b := nn - kk + 1) (s := (false, rs.s))
    (f := fun i (st : Bool × (ℕ → ℤ)) =>
      (st.1 || decide (rs.syndrome i ≠ 0), Function.update st.2 i (rs.log (rs.syndrome i))))
    (fun i st => (st.1 = true ↔ ∃ n, 1 ≤ n ∧ n < i ∧ rs.syndrome n ≠ 0) ∧
      ∀ n, 1 ≤ n → n < i → st.2 n = rs.log (rs.syndrome n)) (by simp) ?_ ?_
  · obtain ⟨h1, h2⟩ := h
    refine ⟨h1.trans ?_, _, rfl, fun n hn hn8 => h2 n hn (Nat.lt_succ_of_le hn8)⟩
    simp only [nn_eq, kk_eq, show 31 - 23 + 1 = 9 from rfl, Nat.lt_succ_iff]
  · refine ⟨⟨fun h => absurd h (by simp), fun ⟨n, h1, h2, _⟩ => by omega⟩, fun n h1 h2 => by omega⟩
  · rintro i ⟨flag, s⟩ hi - ⟨h1, h2⟩
    simp only at h1 h2 ⊢
    refine ⟨?_, fun n hn hni => ?_⟩
    · rw [Bool.or_eq_true, h1, decide_eq_true_iff]
      constructor
      · rintro (⟨n, hn, hni, hne⟩ | hne)
        · exact ⟨n, hn, by omega, hne⟩
        · exact ⟨i, hi, by omega, hne⟩
      · rintro ⟨n, hn, hni, hne⟩
        rcases Nat.lt_or_eq_of_le (Nat.le_of_lt_succ hni) with h | rfl
        · exact Or.inl ⟨n, hn, h, hne⟩
        · exact Or.inr hne
    · rcases Nat.lt_or_eq_of_le (Nat.le_of_lt_succ hni) with h | rfl
      · rw [Function.update_of_ne (by omega)]
        exact h2 n hn h
      · rw [Function.update_self]

/-! ## The table as recurrences of the syndromes -/

section Rows

variable {K : Type*} [Field K] {α : K} {S : ℕ → K}

/-- The cells of the table when row `v` is the current one. -/
def cells (α : K) (v : ℕ) (rs : ReedSolomon) (q i : ℕ) : K :=
  if q < v then ofIndex α (rs.elp q i) else ofPoly α (rs.elp q i)

/-- The syndromes `s[1..8]` are those of the sequence `S`, in index form. -/
def Syndromes (α : K) (S : ℕ → K) (rs : ReedSolomon) : Prop :=
  ∀ n, 1 ≤ n → n ≤ 8 → Idx (rs.s n) ∧ ofIndex α (rs.s n) = S n

/-- Rows `0, ..., v` of the iteration on the syndromes `S`. -/
structure Rows (α : K) (S : ℕ → K) (v : ℕ) (rs : ReedSolomon) : Prop where
  tables : Tables rs
  syn : Syndromes α S rs
  done : ∀ q < v, ∀ i ≤ rs.l q, Idx (rs.elp q i)
  last : ∀ i ≤ rs.l v, Sym (rs.elp v i)
  idx : ∀ q < v, Idx (rs.d q)
  u_lu : ∀ q ≤ v, rs.u_lu q = (q : ℤ) - 1 - rs.l q
  table : Table S v (cells α v rs) rs.l fun q => ofIndex α (rs.d q)

/-- `d[v]` is the discrepancy of row `v`. -/
def Next (α : K) (S : ℕ → K) (v : ℕ) (rs : ReedSolomon) : Prop :=
  Idx (rs.d v) ∧ ofIndex α (rs.d v) = disc (cells α v rs v) (rs.l v) S v

theorem Rows.d_zero {v : ℕ} {rs : ReedSolomon} (h : Rows α S v rs) : rs.d 0 ≠ -1 := fun h0 =>
  h.table.sentinel.2.2 (by rw [h0, ofIndex_neg_one])

theorem Rows.l_lt {v : ℕ} {rs : ReedSolomon} (h : Rows α S v rs) (hv : v ≤ 8) (q : ℕ) (hq : q ≤ v) : rs.l q < 8 := by
  rcases Nat.eq_zero_or_pos q with rfl | hpos
  · have := h.table.sentinel.2.1
    omega
  · have := (h.table.row q hpos hq).2
    omega

/-- The next row of the table, whichever branch makes it. -/
def nextRow (u : ℕ) (rs : ReedSolomon) : ReedSolomon :=
  if rs.d u = -1 then copyRow u rs else combineRow u (selectRow rs u) rs

/-- Rows before the new one: row `u` goes into index form, nothing else changes. -/
theorem nextRow_old (rs : ReedSolomon) {u : ℕ} (hu : 1 ≤ u) (h0 : rs.d 0 ≠ -1) {p k : ℕ} (hp : p ≠ u + 1) (hk : k < 8) :
    (nextRow u rs).elp p k = if p = u ∧ k < rs.l u + 1 then rs.log (rs.elp u k) else rs.elp p k := by
  unfold nextRow
  split
  · rw [copyRow_elp, if_neg (fun h => hp h.1)]
  · rw [combineRow_elp rs (selectRow_spec rs hu h0).1 p hk, if_neg hp]

theorem nextRow_l {rs : ReedSolomon} {u p : ℕ} (hp : p ≠ u + 1) : (nextRow u rs).l p = rs.l p := by
  unfold nextRow
  split
  · simp [copyRow, hp]
  · simp [combineRow, hp]

theorem nextRow_frame (u : ℕ) (rs : ReedSolomon) :
    nextRow u rs = { rs with l := (nextRow u rs).l, elp := (nextRow u rs).elp } := by
  unfold nextRow
  split <;> rfl

theorem berlekampStep_l (u : ℕ) (rs : ReedSolomon) : (berlekampStep u rs).l = (nextRow u rs).l := by
  unfold berlekampStep nextRow
  simp only
  split <;> split <;> rfl

/-- An entry of `d` that no row has used yet. -/
theorem Rows.set_d {v : ℕ} {rs : ReedSolomon} (h : Rows α S v rs) (x : ℤ) :
    Rows α S v { rs with d := Function.update rs.d v x } := by
  have hd : ∀ q < v, Function.update rs.d v x q = rs.d q := fun q hq => Function.update_of_ne (by omega) _ _
  exact
  { tables := h.tables.of_eq rfl rfl
    syn := h.syn
    done := h.done
    last := h.last
    idx := fun q hq => by simpa only [hd q hq] using h.idx q hq
    u_lu := h.u_lu
    table := h.table.congr (fun _ _ => rfl) (fun q hq => by simp only [hd q hq]) (fun _ _ _ _ => rfl) }

theorem initTable_elp (rs : ReedSolomon) : (initTable rs).elp 0 0 = 0 ∧ (initTable rs).elp 1 0 = 1 := by
  refine forUp_rule (P := fun _ (elp : ℕ → ℕ → ℤ) => elp 0 0 = 0 ∧ elp 1 0 = 1) (by simp) (by simp [set2_apply]) ?_
  rintro i elp hi - ⟨h0, h1⟩
  have hne : ¬ (0 = i) := by omega
  simp [set2_apply, h0, h1, hne]

theorem initTable_rows {rs : ReedSolomon} (ht : Tables rs) (hs : Syndromes α S rs) :
    Rows α S 1 (initTable rs) ∧ Next α S 1 (initTable rs) := by
  obtain ⟨h00, h10⟩ := initTable_elp rs
  have hl0 : (initTable rs).l 0 = 0 := by simp [initTable]
  have hl1 : (initTable rs).l 1 = 0 := by simp [initTable]
  have hd0 : (initTable rs).d 0 = 0 := by simp [initTable]
  have hd1 : (initTable rs).d 1 = rs.s 1 := by simp [initTable]
  have hone : ofIndex α 0 = 1 := by rw [ofIndex_of_nonneg (le_refl 0), Int.toNat_zero, pow_zero]
  have hc1 : cells α 1 (initTable rs) 1 0 = 1 := by
    rw [cells, if_neg (Nat.lt_irrefl 1), h10, ofPoly_one]
  refine ⟨⟨ht.of_eq rfl rfl, hs, fun q hq i hi => ?_, fun i hi => ?_, fun q hq => ?_, fun q hq => ?_, ?_⟩, ?_⟩
  · obtain rfl : q = 0 := by omega
    obtain rfl : i = 0 := by omega
    rw [h00]
    decide
  · obtain rfl : i = 0 := by omega
    rw [h10]
    exact sym_one
  · obtain rfl : q = 0 := by omega
    rw [hd0]
    decide
  · rcases (show q = 0 ∨ q = 1 by omega) with rfl | rfl
    · simp [initTable]
    · simp [initTable]
  · refine table_one ?_ hl0 ?_ hc1 hl1
    · rw [cells, if_pos Nat.one_pos, h00, hone]
    · rw [hd0, hone]
      exact one_ne_zero
  · obtain ⟨hi, hv⟩ := hs 1 (le_refl 1) (by omega)
    rw [Next, hd1, hl1]
    refine ⟨hi, hv.trans ?_⟩
    rw [disc, Finset.sum_range_one, hc1, one_mul]

variable [CharP K 2] (hα : α ^ 5 = α ^ 2 + 1)

include hα

theorem scaled_value {v q : ℕ} {rs : ReedSolomon} (h : Rows α S v rs) (hq : q < v) (hdq : rs.d q ≠ -1)
    (hdv : Idx (rs.d v)) (hdv0 : rs.d v ≠ -1) (k : ℕ) :
    Sym (scaled rs v q k) ∧ ofPoly α (scaled rs v q k) =
      if v - q ≤ k ∧ k ≤ v - q + rs.l q then
        ofIndex α (rs.d v) / ofIndex α (rs.d q) * cells α v rs q (k - (v - q)) else 0 := by
  unfold scaled
  by_cases hk : v - q ≤ k ∧ k ≤ v - q + rs.l q
  · have hidx := h.done q hq (k - (v - q)) (by omega)
    rw [if_pos hk, cells, if_pos hq]
    by_cases he : rs.elp q (k - (v - q)) = -1
    · rw [if_neg (fun hc => hc.2.2 he), he, ofIndex_neg_one, mul_zero, ofPoly_zero]
      exact ⟨sym_zero, rfl⟩
    · rw [if_pos ⟨hk.1, by omega, he⟩]
      have h1 := hdv.1
      have h2 := hidx.1
      exact h.tables.exp_div hα (by omega) (h.idx q hq) hdq (by omega)
  · rw [if_neg hk, if_neg (by omega), ofPoly_zero]
    exact ⟨sym_zero, rfl⟩

/-- A row before the new one reads the same in the field. -/
theorem nextRow_cells {v : ℕ} {rs : ReedSolomon} (h : Rows α S v rs) (hd0 : rs.d 0 ≠ -1) {q i : ℕ} (hq : q ≤ v)
    (hi : i ≤ rs.l q) (hi8 : i < 8) : cells α (v + 1) (nextRow v rs) q i = cells α v rs q i := by
  have hold := nextRow_old rs h.table.pos hd0 (p := q) (k := i) (by omega) hi8
  rw [cells, cells, if_pos (by omega), hold]
  rcases Nat.lt_or_eq_of_le hq with hlt | rfl
  · rw [if_neg (by omega), if_pos hlt]
  · rw [if_pos ⟨rfl, by omega⟩, if_neg (by omega), h.tables.log_spec hα (h.last i hi)]

omit [CharP K 2] in
/-- The length of the new row: the one that Massey's inequality asks for. -/
theorem nextRow_length {v : ℕ} {rs : ReedSolomon} (h : Rows α S v rs) :
    (nextRow v rs).l (v + 1) = if rs.d v = -1 then rs.l v else max (rs.l v) (v - rs.l v) := by
  by_cases hz : rs.d v = -1
  · rw [nextRow, if_pos hz, if_pos hz]
    simp [copyRow]
  · obtain ⟨hq, hdq, hmax⟩ := selectRow_spec rs h.table.pos h.d_zero
    rw [nextRow, if_neg hz, if_neg hz]
    generalize selectRow rs v = q at hq hdq hmax
    have hsel := h.table.selected hq (fun h1 => hdq (ofIndex_eq_zero hα h1)) fun p hp hDp => by
      have h1 := hmax p hp fun h1 => hDp (by rw [h1, ofIndex_neg_one])
      rw [h.u_lu p (by omega), h.u_lu q (by omega)] at h1
      omega
    simp only [combineRow, Function.update_self]
    split <;> omega

omit [CharP K 2] in
/-- No row is longer than a recurrence of the whole sequence. -/
theorem nextRow_length_le {v : ℕ} {rs : ReedSolomon} (h : Rows α S v rs) (hn : Next α S v rs) {c : ℕ → K} {ν : ℕ}
    (hgen : ∀ u, Generates c ν S u) : (nextRow v rs).l (v + 1) ≤ ν := by
  have hle := h.table.length_le (hgen v)
  rw [nextRow_length hα h]
  by_cases hz : rs.d v = -1
  · rw [if_pos hz]
    exact hle
  · have hne : disc (cells α v rs v) (rs.l v) S v ≠ 0 := by
      rw [← hn.2]
      exact fun h0 => hz (ofIndex_eq_zero hα h0)
    have := massey (h.table.row v h.table.pos (le_refl v)).1 hne (hgen (v + 1))
    rw [if_neg hz]
    omega

/-- The new row is the next row of the abstract table, and its cells are symbols in polynomial form. -/
theorem nextRow_table {v : ℕ} {rs : ReedSolomon} (h : Rows α S v rs) (hn : Next α S v rs) (hv : v ≤ 8)
    (hlen : (nextRow v rs).l (v + 1) < 8) :
    Table S (v + 1) (cells α (v + 1) (nextRow v rs)) (nextRow v rs).l (fun q => ofIndex α (rs.d q)) ∧
      ∀ i ≤ (nextRow v rs).l (v + 1), Sym ((nextRow v rs).elp (v + 1) i) := by
  obtain ⟨hdv, hdisc⟩ := hn
  have hd0 := h.d_zero
  have hle := h.l_lt hv
  have hL : ∀ q ≤ v, (nextRow v rs).l q = rs.l q := fun q hq => nextRow_l (by omega)
  have hC : ∀ q ≤ v, ∀ i ≤ rs.l q, cells α (v + 1) (nextRow v rs) q i = cells α v rs q i := fun q hq i hi =>
    nextRow_cells hα h hd0 hq hi (by have := hle q hq; omega)
  by_cases hz : rs.d v = -1
  · have hrow : nextRow v rs = copyRow v rs := if_pos hz
    have hLv : (nextRow v rs).l (v + 1) = rs.l v := by rw [hrow]; simp [copyRow]
    have hnew : ∀ i ≤ rs.l v, (nextRow v rs).elp (v + 1) i = rs.elp v i := fun i hi => by
      rw [hrow, copyRow_elp, if_pos ⟨rfl, by omega⟩]
    refine ⟨h.table.copy hdisc (by rw [hz, ofIndex_neg_one]) hL hC hLv fun i hi => ?_, fun i hi => ?_⟩
    · rw [cells, cells, if_neg (by omega), if_neg (by omega), hnew i hi]
    · rw [hLv] at hi
      rw [hnew i hi]
      exact h.last i hi
  · obtain ⟨hq, hdq, hmax⟩ := selectRow_spec rs h.table.pos hd0
    have hrow : nextRow v rs = combineRow v (selectRow rs v) rs := if_neg hz
    generalize selectRow rs v = q at hq hdq hmax hrow
    have hLv : (nextRow v rs).l (v + 1) = max (rs.l v) (rs.l q + (v - q)) := by
      rw [hrow]
      simp only [combineRow, Function.update_self]
      split <;> omega
    have hne : ∀ p < v, ofIndex α (rs.d p) ≠ 0 → rs.d p ≠ -1 := fun p _ hp h1 => hp (by rw [h1, ofIndex_neg_one])
    have hcomb := h.table.combine (E := fun p i => if p = v + 1 then
        combine (cells α v rs v) (rs.l v) (cells α v rs q) (rs.l q) (v - q)
          (-(ofIndex α (rs.d v) / ofIndex α (rs.d q))) i else cells α v rs p i)
      hdisc (fun h1 => hz (ofIndex_eq_zero hα h1)) hq (fun h1 => hdq (ofIndex_eq_zero hα h1))
      (fun p hp hDp => by
        have h1 := hmax p hp (hne p hp hDp)
        rw [h.u_lu p (by omega), h.u_lu q (by omega)] at h1
        omega)
      hL (fun p hp i _ => if_neg (by omega)) hLv (fun i _ => if_pos rfl)
    have hnew : ∀ i ≤ (nextRow v rs).l (v + 1), Sym ((nextRow v rs).elp (v + 1) i) ∧
        ofPoly α ((nextRow v rs).elp (v + 1) i) = combine (cells α v rs v) (rs.l v) (cells α v rs q) (rs.l q) (v - q)
          (-(ofIndex α (rs.d v) / ofIndex α (rs.d q))) i := fun i hi => by
      obtain ⟨hs, hval⟩ := scaled_value hα h hq hdq hdv hz i
      rw [hrow, combineRow_elp rs hq _ (by omega), if_pos rfl, combine, CharTwo.neg_eq]
      by_cases hil : i ≤ rs.l v
      · have hlast := h.last i hil
        have hcell : cells α v rs v i = ofPoly α (rs.elp v i) := if_neg (Nat.lt_irrefl v)
        rw [if_pos (Nat.lt_succ_of_le hil), if_pos hil, ofPoly_xor hs hlast, hval, add_comm, hcell]
        exact ⟨hs.xor hlast, rfl⟩
      · rw [if_neg (by omega), if_neg hil, hval, zero_add]
        exact ⟨hs, rfl⟩
    refine ⟨hcomb.congr (fun _ _ => rfl) (fun _ _ => rfl) fun p hp i hi => ?_, fun i hi => (hnew i hi).1⟩
    rcases Nat.lt_or_eq_of_le hp with hlt | rfl
    · rw [if_neg (by omega)]
      rw [hL p (by omega)] at hi
      exact hC p (by omega) i hi
    · rw [if_pos rfl, cells, if_neg (by omega), (hnew i hi).2]

/-- The discrepancy that the code computes is that of the abstract row. -/
theorem discrepancy_spec {rs : ReedSolomon} (ht : Tables rs)
    (hs : Syndromes α S rs) {u : ℕ} (hu : u ≤ 8) (hl : rs.l u < u)
    (he : ∀ i ≤ rs.l u, Sym (rs.elp u i)) (h1 : ofPoly α (rs.elp u 0) = 1) :
    Sym (rs.discrepancy u) ∧ ofPoly α (rs.discrepancy u) = disc (fun i => ofPoly α (rs.elp u i)) (rs.l u) S u := by
  have hstart : Sym (if rs.s u ≠ -1 then rs.alpha_to (rs.s u).toNat else 0) ∧
      ofPoly α (if rs.s u ≠ -1 then rs.alpha_to (rs.s u).toNat else 0) = S u := by
    obtain ⟨hidx, hval⟩ := hs u (by omega) hu
    rw [← hval]
    by_cases h : rs.s u = -1
    · rw [if_neg (not_not.2 h), h, ofIndex_neg_one, ofPoly_zero]
      exact ⟨sym_zero, rfl⟩
    · have h0 : 0 ≤ rs.s u := by have := hidx.1; omega
      rw [if_pos h]
      exact ⟨ht.alpha_sym h0 hidx.2, ht.alpha_spec hα h0 hidx.2⟩
  have hloop := forUp_sum (a := 1) (b := rs.l u + 1)
    (s := if rs.s u ≠ -1 then rs.alpha_to (rs.s u).toNat else 0)
    (f := fun i v => if rs.s (u - i) ≠ -1 ∧ rs.elp u i ≠ 0 then
      Int.xor v (rs.exp (rs.s (u - i) + rs.log (rs.elp u i))) else v)
    Sym (ofPoly α) (fun i => ofPoly α (rs.elp u i) * S (u - i)) (by omega) hstart.1 ?_
  · refine ⟨hloop.1, hloop.2.trans ?_⟩
    rw [hstart.2, disc, Finset.range_eq_Ico, Finset.sum_eq_sum_Ico_succ_bot (Nat.succ_pos _), h1, one_mul, Nat.sub_zero]
  · intro i v hi hil hv
    obtain ⟨hidx, hval⟩ := hs (u - i) (by omega) (by omega)
    have hsym := he i (by omega)
    rw [← hval]
    by_cases h0 : rs.elp u i = 0
    · rw [if_neg (fun hc => hc.2 h0), h0, ofPoly_zero, zero_mul, add_zero]
      exact ⟨hv, rfl⟩
    by_cases hm : rs.s (u - i) = -1
    · rw [if_neg (fun hc => hc.1 hm), hm, ofIndex_neg_one, mul_zero, add_zero]
      exact ⟨hv, rfl⟩
    · obtain ⟨hp, hpv⟩ := ht.exp_mul hα hidx hsym h0 hm
      rw [if_pos ⟨hm, h0⟩, ofPoly_xor hv hp, hpv, mul_comm (ofPoly α (rs.elp u i))]
      exact ⟨hv.xor hp, rfl⟩

theorem nextRow_rows {v : ℕ} {rs : ReedSolomon} (h : Rows α S v rs) (hn : Next α S v rs) (hv : v ≤ 8)
    (hlen : (nextRow v rs).l (v + 1) < 8) :
    Rows α S (v + 1) { nextRow v rs with
      u_lu := Function.update (nextRow v rs).u_lu (v + 1) ((v : ℤ) - (nextRow v rs).l (v + 1)) } := by
  obtain ⟨htable, hlast⟩ := nextRow_table hα h hn hv hlen
  have hframe := nextRow_frame v rs
  have hL : ∀ q ≤ v, (nextRow v rs).l q = rs.l q := fun q hq => nextRow_l (by omega)
  have hold : ∀ q ≤ v, ∀ i ≤ rs.l q, (nextRow v rs).elp q i =
      if q = v ∧ i < rs.l v + 1 then rs.log (rs.elp v i) else rs.elp q i := fun q hq i hi =>
    nextRow_old _ h.table.pos h.d_zero (by omega) (by have := h.l_lt hv q hq; omega)
  generalize nextRow v rs = r at *
  have hd : r.d = rs.d := by rw [hframe]
  exact
  { tables := h.tables.of_eq (by rw [hframe]) (by rw [hframe])
    syn := by rw [hframe]; exact h.syn
    done := fun q hq i hi => by
      have hi' : i ≤ rs.l q := by rw [← hL q (by omega)]; exact hi
      simp only
      rw [hold q (by omega) i hi']
      rcases Nat.lt_or_eq_of_le (Nat.le_of_lt_succ hq) with hlt | rfl
      · rw [if_neg (by omega)]
        exact h.done q hlt i hi'
      · rw [if_pos ⟨rfl, Nat.lt_succ_of_le hi'⟩]
        exact h.tables.log_idx (h.last i hi')
    last := hlast
    idx := fun q hq => by
      simp only [hd]
      rcases Nat.lt_or_eq_of_le (Nat.le_of_lt_succ hq) with hlt | rfl
      · exact h.idx q hlt
      · exact hn.1
    u_lu := fun q hq => by
      have hu : r.u_lu = rs.u_lu := by rw [hframe]
      rcases Nat.lt_or_eq_of_le hq with hlt | rfl
      · simp only [Function.update_of_ne (show q ≠ v + 1 by omega)]
        rw [hu, h.u_lu q (by omega), hL q (by omega)]
      · simp only [Function.update_self]
        omega
    table := htable.congr (fun _ _ => rfl) (fun q _ => by simp only [hd]) (fun _ _ _ _ => rfl) }

/-- One round of the loop adds a row and, before the last round, its discrepancy. -/
theorem Rows.step {v : ℕ} {rs : ReedSolomon} (h : Rows α S v rs) (hn : Next α S v rs) (hv : v ≤ 8)
    (hlen : (nextRow v rs).l (v + 1) < 8) :
    Rows α S (v + 1) (berlekampStep v rs) ∧ (v < 8 → Next α S (v + 1) (berlekampStep v rs)) := by
  have hrows := nextRow_rows hα h hn hv hlen
  have hstep : ∀ r, r = { nextRow v rs with
      u_lu := Function.update (nextRow v rs).u_lu (v + 1) ((v : ℤ) - (nextRow v rs).l (v + 1)) } →
      berlekampStep v rs =
        if v < 8 then { r with d := Function.update r.d (v + 1) (r.log (r.discrepancy (v + 1))) } else r := by
    rintro r rfl
    rfl
  generalize { nextRow v rs with
    u_lu := Function.update (nextRow v rs).u_lu (v + 1) ((v : ℤ) - (nextRow v rs).l (v + 1)) } = r at hrows hstep
  rw [hstep r rfl]
  by_cases hv8 : v < 8
  · have hrow := hrows.table.row (v + 1) (by omega) (le_refl _)
    have hcells : cells α (v + 1) r (v + 1) = fun i => ofPoly α (r.elp (v + 1) i) :=
      funext fun i => if_neg (Nat.lt_irrefl _)
    have hhead := hrow.1.head
    rw [hcells] at hhead
    obtain ⟨hsym, hval⟩ := discrepancy_spec hα hrows.tables hrows.syn (by omega) hrow.2 hrows.last hhead
    rw [if_pos hv8]
    refine ⟨hrows.set_d _, fun _ => ?_⟩
    unfold Next
    simp only [Function.update_self]
    refine ⟨hrows.tables.log_idx hsym, ?_⟩
    rw [hrows.tables.log_spec hα hsym, hval, ← hcells]
    rfl
  · rw [if_neg hv8]
    exact ⟨hrows, fun hc => absurd hc hv8⟩

/-- The loop runs all its rounds on a sequence with a short recurrence. -/
theorem berlekamp_rows {c : ℕ → K} {ν : ℕ} (hν : ν ≤ 4) (hgen : ∀ u, Generates c ν S u) :
    ∀ (n u : ℕ) (rs : ReedSolomon), u + n = 8 → Rows α S (u + 1) rs → (u < 8 → Next α S (u + 1) rs) →
      (berlekamp n u rs).1 = 8 ∧ Rows α S 9 (berlekamp n u rs).2
  | 0, u, rs, hu, hr, _ => by
    obtain rfl : u = 8 := by omega
    exact ⟨rfl, hr⟩
  | n + 1, u, rs, hu, hr, hn => by
    obtain ⟨hr', hn'⟩ := hr.step hα (hn (by omega)) (by omega)
      (lt_of_le_of_lt (nextRow_length_le hα hr (hn (by omega)) hgen) (by omega))
    have hlen := hr'.table.length_le (hgen (u + 1 + 1))
    simp only [berlekamp]
    by_cases hu8 : u + 1 < nn - kk
    · rw [if_pos ⟨hu8, hlen.trans hν⟩]
      exact berlekamp_rows hν hgen n (u + 1) _ (by omega) hr' hn'
    · have hnn : nn - kk = 8 := rfl
      obtain rfl : u = 7 := by omega
      rw [if_neg (fun h => hu8 h.1)]
      exact ⟨rfl, hr'⟩

/-- A loop that ends with a short row has run all its rounds. -/
theorem berlekamp_short :
    ∀ (n u : ℕ) (rs : ReedSolomon), u + n = 8 → Rows α S (u + 1) rs → (u < 8 → Next α S (u + 1) rs) →
      (berlekamp n u rs).2.l ((berlekamp n u rs).1 + 1) ≤ 4 →
        (berlekamp n u rs).1 = 8 ∧ Rows α S 9 (berlekamp n u rs).2
  | 0, u, rs, hu, hr, _, _ => by
    obtain rfl : u = 8 := by omega
    exact ⟨rfl, hr⟩
  | n + 1, u, rs, hu, hr, hn, hend => by
    have hnn : nn - kk = 8 := rfl
    have hl := berlekampStep_l (u + 1) rs
    simp only [berlekamp] at hend ⊢
    by_cases hshort : (berlekampStep (u + 1) rs).l (u + 2) ≤ 4
    · have hlen : (nextRow (u + 1) rs).l (u + 1 + 1) < 8 := by
        rw [← hl]
        exact Nat.lt_of_le_of_lt hshort (by omega)
      obtain ⟨hr', hn'⟩ := hr.step hα (hn (by omega)) (by omega) hlen
      by_cases hu8 : u + 1 < nn - kk
      · rw [if_pos ⟨hu8, hshort⟩] at hend ⊢
        exact berlekamp_short n (u + 1) _ (by omega) hr' hn' hend
      · obtain rfl : u = 7 := by omega
        rw [if_neg (fun h => hu8 h.1)]
        exact ⟨rfl, hr'⟩
    · rw [if_neg (fun h => hshort h.2)] at hend
      exact absurd hend hshort

end Rows

/-! ## The iteration as a whole -/

theorem berlekampStep_frame (u : ℕ) (rs : ReedSolomon) :
    ∃ d elp l u_lu, berlekampStep u rs = { rs with d := d, elp := elp, l := l, u_lu := u_lu } := by
  unfold berlekampStep
  simp only
  split <;> split <;> exact ⟨_, _, _, _, rfl⟩

/-- The iteration writes nothing but the table. -/
theorem berlekamp_frame : ∀ (n u : ℕ) (rs : ReedSolomon),
    ∃ d elp l u_lu, (berlekamp n u rs).2 = { rs with d := d, elp := elp, l := l, u_lu := u_lu }
  | 0, _, _ => ⟨_, _, _, _, rfl⟩
  | n + 1, u, rs => by
    obtain ⟨d, elp, l, u_lu, hstep⟩ := berlekampStep_frame (u + 1) rs
    simp only [berlekamp]
    rw [hstep]
    split
    · exact berlekamp_frame n (u + 1) _
    · exact ⟨_, _, _, _, rfl⟩

theorem berlekamp_le : ∀ (n u : ℕ) (rs : ReedSolomon), (berlekamp n u rs).1 ≤ u + n
  | 0, _, _ => le_rfl
  | n + 1, u, rs => by
    simp only [berlekamp]
    split
    · exact (berlekamp_le n (u + 1) _).trans (by omega)
    · simp only
      omega

theorem findLocator_frame (rs : ReedSolomon) :
    ∃ d elp l u_lu, (findLocator rs).2 = { rs with d := d, elp := elp, l := l, u_lu := u_lu } := by
  obtain ⟨d, elp, l, u_lu, h⟩ := berlekamp_frame (nn - kk) 0 (initTable rs)
  exact ⟨d, elp, l, u_lu, h⟩

/-- On syndromes with a recurrence of length at most four, the last row generates all of them, and no row that does is
shorter. -/
theorem findLocator_spec {K : Type*} [Field K] [CharP K 2] {α : K} (hα : α ^ 5 = α ^ 2 + 1) {S : ℕ → K}
    {rs : ReedSolomon} (ht : Tables rs) (hs : Syndromes α S rs) {c : ℕ → K} {ν : ℕ} (hν : ν ≤ 4)
    (hgen : ∀ u, Generates c ν S u) :
    (findLocator rs).1 = 9 ∧ (findLocator rs).2.l 9 ≤ ν ∧
      (∀ i ≤ (findLocator rs).2.l 9, Sym ((findLocator rs).2.elp 9 i)) ∧
      Generates (fun i => ofPoly α ((findLocator rs).2.elp 9 i)) ((findLocator rs).2.l 9) S 9 := by
  obtain ⟨hr, hn⟩ := initTable_rows ht hs
  obtain ⟨hu, h9⟩ := berlekamp_rows hα hν hgen 8 0 _ rfl hr fun _ => hn
  refine ⟨congrArg (· + 1) hu, h9.table.length_le (hgen 9), h9.last, ?_⟩
  exact (h9.table.row 9 (by omega) (le_refl 9)).1.congr fun i _ => (if_neg (Nat.lt_irrefl 9)).symm

/-- On any syndromes, a last row of length at most four is the last row of the whole iteration. -/
theorem findLocator_rows {K : Type*} [Field K] [CharP K 2] {α : K} (hα : α ^ 5 = α ^ 2 + 1) {S : ℕ → K}
    {rs : ReedSolomon} (ht : Tables rs) (hs : Syndromes α S rs)
    (hl : (findLocator rs).2.l (findLocator rs).1 ≤ 4) :
    (findLocator rs).1 = 9 ∧ Rows α S 9 (findLocator rs).2 := by
  obtain ⟨hr, hn⟩ := initTable_rows ht hs
  obtain ⟨hu, h9⟩ := berlekamp_short hα 8 0 _ rfl hr (fun _ => hn) hl
  exact ⟨congrArg (· + 1) hu, h9⟩

end ReedSolomon

end Undertone
