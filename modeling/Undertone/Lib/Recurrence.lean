import Mathlib.Algebra.BigOperators.Intervals
import Mathlib.Algebra.BigOperators.Ring.Finset
import Mathlib.Algebra.Field.Basic
import Mathlib.Tactic.Ring

/-!
# Shortest linear recurrences

A row `(c, l)` with `c 0 = 1` generates a sequence `s` below `u` when `c 0 * s n + ... + c l * s (n - l)` vanishes for
`l < n < u` (`Generates`). The table of the Berlekamp iteration keeps one row for each prefix of the sequence together
with the discrepancy that stopped it. `Table` is its invariant, kept by the two ways of making a new row
(`Table.copy`, `Table.combine`); by Massey's inequality (`massey`) the length of the last row is the least possible
(`Table.length_le`).
-/

namespace Recurrence

open Finset

variable {K : Type*} [Field K]

/-- The discrepancy of the row `(c, l)` at `n`. -/
def disc (c : ℕ → K) (l : ℕ) (s : ℕ → K) (n : ℕ) : K := ∑ i ∈ range (l + 1), c i * s (n - i)

structure Generates (c : ℕ → K) (l : ℕ) (s : ℕ → K) (u : ℕ) : Prop where
  head : c 0 = 1
  zero : ∀ n, l < n → n < u → disc c l s n = 0

/-- Only the first `l + 1` coefficients of a row count. -/
theorem disc_congr {c c' : ℕ → K} {l : ℕ} (h : ∀ i ≤ l, c' i = c i) (s : ℕ → K) (n : ℕ) :
    disc c' l s n = disc c l s n :=
  sum_congr rfl fun i hi => by rw [h i (Nat.le_of_lt_succ (mem_range.1 hi))]

theorem Generates.congr {c c' : ℕ → K} {l : ℕ} {s : ℕ → K} {u : ℕ} (h : ∀ i ≤ l, c' i = c i)
    (hg : Generates c l s u) : Generates c' l s u :=
  ⟨by rw [h 0 (Nat.zero_le l), hg.head], fun n hl hu => by rw [disc_congr h, hg.zero n hl hu]⟩

theorem Generates.mono {c : ℕ → K} {l : ℕ} {s : ℕ → K} {u u' : ℕ} (h : u' ≤ u) (hg : Generates c l s u) :
    Generates c l s u' :=
  ⟨hg.head, fun n hl hu => hg.zero n hl (by omega)⟩

/-- Rows of lengths `l` and `l'` that part at `u` have `u ≤ l + l'`. -/
theorem massey {c c' : ℕ → K} {l l' u : ℕ} {s : ℕ → K} (hg : Generates c l s u) (hd : disc c l s u ≠ 0)
    (hg' : Generates c' l' s (u + 1)) : u ≤ l + l' := by
  by_contra hlt
  have hswap : ∑ i ∈ range (l + 1), c i * disc c' l' s (u - i) =
      ∑ j ∈ range (l' + 1), c' j * disc c l s (u - j) := by
    simp only [disc, mul_sum]
    rw [sum_comm]
    refine sum_congr rfl fun j _ => sum_congr rfl fun i _ => ?_
    have h : u - i - j = u - j - i := by omega
    rw [h]
    ring
  have hleft : ∑ i ∈ range (l + 1), c i * disc c' l' s (u - i) = 0 := by
    refine sum_eq_zero fun i hi => ?_
    have := mem_range.1 hi
    rw [hg'.zero (u - i) (by omega) (by omega), mul_zero]
  have hright : ∑ j ∈ range (l' + 1), c' j * disc c l s (u - j) = disc c l s u := by
    rw [sum_range_succ', hg'.head, one_mul, Nat.sub_zero, sum_eq_zero, zero_add]
    intro j hj
    have := mem_range.1 hj
    rw [hg.zero (u - (j + 1)) (by omega) (by omega), mul_zero]
  rw [hleft, hright] at hswap
  exact hd hswap.symm

/-- Two sequences with the same row that agree up to its length agree as far as it generates them. -/
theorem Generates.determined {c : ℕ → K} {l u : ℕ} {s t : ℕ → K} (hs : Generates c l s u) (ht : Generates c l t u)
    (h : ∀ n, 1 ≤ n → n ≤ l → s n = t n) (n : ℕ) : 1 ≤ n → n < u → s n = t n := by
  induction n using Nat.strong_induction_on with
  | _ n ih =>
    intro h1 hu
    by_cases hl : n ≤ l
    · exact h n h1 hl
    · have hs0 := hs.zero n (by omega) hu
      have ht0 := ht.zero n (by omega) hu
      rw [disc, sum_range_succ', hs.head, one_mul, Nat.sub_zero] at hs0
      rw [disc, sum_range_succ', hs.head, one_mul, Nat.sub_zero] at ht0
      have htail : ∑ i ∈ range l, c (i + 1) * s (n - (i + 1)) = ∑ i ∈ range l, c (i + 1) * t (n - (i + 1)) := by
        refine sum_congr rfl fun i hi => ?_
        have := mem_range.1 hi
        rw [ih (n - (i + 1)) (by omega) (by omega) (by omega)]
      rw [htail, ← ht0] at hs0
      exact add_left_cancel hs0

/-! ## Sums of rows -/

/-- The row `(c, l)` plus `ρ` times the row `(c', l')` shifted by `k`. -/
def combine (c : ℕ → K) (l : ℕ) (c' : ℕ → K) (l' k : ℕ) (ρ : K) (i : ℕ) : K :=
  (if i ≤ l then c i else 0) + if k ≤ i ∧ i ≤ k + l' then ρ * c' (i - k) else 0

theorem disc_combine (c : ℕ → K) (l : ℕ) (c' : ℕ → K) (l' k : ℕ) (ρ : K) (s : ℕ → K) (n : ℕ) :
    disc (combine c l c' l' k ρ) (max l (l' + k)) s n = disc c l s n + ρ * disc c' l' s (n - k) := by
  have h1 : ∑ i ∈ range (max l (l' + k) + 1), (if i ≤ l then c i else 0) * s (n - i) = disc c l s n := by
    have hsub : range (l + 1) ⊆ range (max l (l' + k) + 1) := range_subset_range.2 (by omega)
    rw [disc, ← sum_subset hsub]
    · refine sum_congr rfl fun i hi => ?_
      rw [if_pos (Nat.le_of_lt_succ (mem_range.1 hi))]
    · intro i _ hi
      rw [if_neg (fun h => hi (mem_range.2 (by omega))), zero_mul]
  have h2 : ∑ i ∈ range (max l (l' + k) + 1), (if k ≤ i ∧ i ≤ k + l' then ρ * c' (i - k) else 0) * s (n - i) =
      ρ * disc c' l' s (n - k) := by
    have hsub : Ico k (k + l' + 1) ⊆ range (max l (l' + k) + 1) := fun i hi => by
      have := mem_Ico.1 hi
      exact mem_range.2 (by omega)
    rw [← sum_subset hsub]
    · rw [sum_Ico_eq_sum_range, disc, mul_sum, show k + l' + 1 - k = l' + 1 by omega]
      refine sum_congr rfl fun j hj => ?_
      have := mem_range.1 hj
      rw [if_pos (by omega), Nat.add_sub_cancel_left, show n - (k + j) = n - k - j by omega, mul_assoc]
    · intro i _ hi
      rw [if_neg (fun h => hi (mem_Ico.2 (by omega))), zero_mul]
  rw [← h1, ← h2, ← sum_add_distrib]
  exact sum_congr rfl fun i _ => by rw [combine, add_mul]

/-! ## The table -/

/-- Rows `1, ..., v` of the iteration with their discrepancies; row `0` is a sentinel. -/
structure Table (s : ℕ → K) (v : ℕ) (C : ℕ → ℕ → K) (L : ℕ → ℕ) (D : ℕ → K) : Prop where
  sentinel : C 0 0 = 1 ∧ L 0 = 0 ∧ D 0 ≠ 0
  pos : 1 ≤ v
  row : ∀ q, 1 ≤ q → q ≤ v → Generates (C q) (L q) s q ∧ L q < q
  disc : ∀ q, 1 ≤ q → q < v → disc (C q) (L q) s q = D q
  bound : ∀ q < v, D q ≠ 0 → q ≤ L q + L v
  attained : ∃ q < v, D q ≠ 0 ∧ q = L q + L v

section Table

variable {s : ℕ → K} {v : ℕ} {C C' : ℕ → ℕ → K} {L L' : ℕ → ℕ} {D D' : ℕ → K}

theorem table_one (hC0 : C 0 0 = 1) (hL0 : L 0 = 0) (hD0 : D 0 ≠ 0) (hC1 : C 1 0 = 1) (hL1 : L 1 = 0) :
    Table s 1 C L D where
  sentinel := ⟨hC0, hL0, hD0⟩
  pos := Nat.le_refl 1
  row q h1 h2 := by
    obtain rfl : q = 1 := by omega
    exact ⟨⟨hC1, fun n hl hu => by omega⟩, by omega⟩
  disc q h1 h2 := by omega
  bound q hq _ := by omega
  attained := ⟨0, by omega, hD0, by omega⟩

/-- The length of the last row is at most that of any row that generates the sequence so far. -/
theorem Table.length_le (h : Table s v C L D) {c : ℕ → K} {l : ℕ} (hg : Generates c l s v) : L v ≤ l := by
  obtain ⟨q, hq, hD, hatt⟩ := h.attained
  rcases Nat.eq_zero_or_pos q with rfl | hpos
  · omega
  · have hd : Recurrence.disc (C q) (L q) s q ≠ 0 := by rwa [h.disc q hpos hq]
    have := massey (h.row q hpos (by omega)).1 hd (hg.mono (by omega))
    omega

/-- A row before `v` whose discrepancy does not vanish and whose defect `q - L q` is greatest. -/
theorem Table.selected (h : Table s v C L D) {q : ℕ} (hq : q < v) (hD : D q ≠ 0)
    (hmax : ∀ p < v, D p ≠ 0 → (p : ℤ) - L p ≤ q - L q) : q = L q + L v := by
  obtain ⟨p, hp, hDp, hatt⟩ := h.attained
  have h1 := hmax p hp hDp
  have h2 := h.bound q hq hD
  omega

/-- Only the cells up to the length of a row and the discrepancies of the finished rows count. -/
theorem Table.congr (h : Table s v C L D) (hL : ∀ q ≤ v, L' q = L q) (hD : ∀ q < v, D' q = D q)
    (hC : ∀ q ≤ v, ∀ i ≤ L q, C' q i = C q i) : Table s v C' L' D' where
  sentinel := by
    obtain ⟨h1, h2, h3⟩ := h.sentinel
    have := h.pos
    exact ⟨by rw [hC 0 (by omega) 0 (by omega), h1], by rw [hL 0 (by omega), h2], by rwa [hD 0 (by omega)]⟩
  pos := h.pos
  row q h1 h2 := by
    rw [hL q h2]
    exact ⟨(h.row q h1 h2).1.congr (hC q h2), (h.row q h1 h2).2⟩
  disc q h1 h2 := by
    rw [hL q (by omega), disc_congr (hC q (by omega)), h.disc q h1 h2, hD q h2]
  bound q hq hne := by
    rw [hL q (by omega), hL v (by omega)]
    rw [hD q hq] at hne
    exact h.bound q hq hne
  attained := by
    obtain ⟨q, hq, hne, hatt⟩ := h.attained
    exact ⟨q, hq, by rwa [hD q hq], by rw [hL q (by omega), hL v (by omega)]; exact hatt⟩

/-- Row `v` generates one term more: the next row is a copy of it. -/
theorem Table.copy (h : Table s v C L D) (hd : D v = Recurrence.disc (C v) (L v) s v) (h0 : D v = 0)
    (hL : ∀ q ≤ v, L' q = L q) (hC : ∀ q ≤ v, ∀ i ≤ L q, C' q i = C q i) (hLv : L' (v + 1) = L v)
    (hCv : ∀ i ≤ L v, C' (v + 1) i = C v i) : Table s (v + 1) C' L' D where
  sentinel := by
    obtain ⟨h1, h2, h3⟩ := h.sentinel
    exact ⟨by rw [hC 0 (by omega) 0 (by omega), h1], by rw [hL 0 (by omega), h2], h3⟩
  pos := by omega
  row q h1 h2 := by
    rcases Nat.lt_or_eq_of_le h2 with hq | rfl
    · obtain ⟨hg, hl⟩ := h.row q h1 (by omega)
      rw [hL q (by omega)]
      exact ⟨hg.congr (hC q (by omega)), hl⟩
    · obtain ⟨hg, hl⟩ := h.row v h.pos (by omega)
      rw [hLv]
      refine ⟨⟨by rw [hCv 0 (by omega), hg.head], fun n hln hn => ?_⟩, by omega⟩
      rw [disc_congr hCv]
      rcases Nat.lt_or_eq_of_le (Nat.le_of_lt_succ hn) with hnv | rfl
      · exact hg.zero n hln hnv
      · rw [← hd, h0]
  disc q h1 h2 := by
    rw [hL q (by omega), disc_congr (hC q (by omega))]
    rcases Nat.lt_or_eq_of_le (Nat.le_of_lt_succ h2) with hq | rfl
    · exact h.disc q h1 hq
    · exact hd.symm
  bound q hq hne := by
    rw [hL q (by omega), hLv]
    rcases Nat.lt_or_eq_of_le (Nat.le_of_lt_succ hq) with hqv | rfl
    · exact h.bound q hqv hne
    · exact absurd h0 hne
  attained := by
    obtain ⟨q, hq, hne, hatt⟩ := h.attained
    exact ⟨q, by omega, hne, by rw [hL q (by omega), hLv]; exact hatt⟩

/-- Row `v` fails at `v`: the next row adds the selected row, shifted and scaled so that the discrepancies cancel. -/
theorem Table.combine {E : ℕ → ℕ → K} (h : Table s v C L D) (hd : D v = Recurrence.disc (C v) (L v) s v) (h0 : D v ≠ 0)
    {q : ℕ}
    (hq : q < v) (hDq : D q ≠ 0) (hmax : ∀ p < v, D p ≠ 0 → (p : ℤ) - L p ≤ q - L q)
    (hL : ∀ q ≤ v, L' q = L q) (hC : ∀ q ≤ v, ∀ i ≤ L q, E q i = C q i)
    (hLv : L' (v + 1) = max (L v) (L q + (v - q)))
    (hCv : ∀ i ≤ max (L v) (L q + (v - q)),
      E (v + 1) i = Recurrence.combine (C v) (L v) (C q) (L q) (v - q) (-(D v / D q)) i) :
    Table s (v + 1) E L' D := by
  have hsel := h.selected hq hDq hmax
  obtain ⟨hgv, hlv⟩ := h.row v h.pos (by omega)
  exact
  { sentinel := by
      obtain ⟨h1, h2, h3⟩ := h.sentinel
      exact ⟨by rw [hC 0 (by omega) 0 (by omega), h1], by rw [hL 0 (by omega), h2], h3⟩
    pos := by omega
    row := by
      intro p h1 h2
      rcases Nat.lt_or_eq_of_le h2 with hp | rfl
      · obtain ⟨hg, hl⟩ := h.row p h1 (by omega)
        rw [hL p (by omega)]
        exact ⟨hg.congr (hC p (by omega)), hl⟩
      · rw [hLv]
        refine ⟨⟨?_, fun n hln hn => ?_⟩, by omega⟩
        · rw [hCv 0 (by omega), Recurrence.combine, if_pos (Nat.zero_le _), if_neg (by omega), hgv.head, add_zero]
        · -- the sentinel is selected only for a row of length zero, and then no `n` is left
          have hq0 : 1 ≤ q := by
            have := h.sentinel.2.1
            by_contra hc
            obtain rfl : q = 0 := by omega
            omega
          rw [disc_congr hCv, disc_combine]
          rcases Nat.lt_or_eq_of_le (Nat.le_of_lt_succ hn) with hnv | rfl
          · rw [hgv.zero n (by omega) hnv, (h.row q hq0 (by omega)).1.zero (n - (v - q)) (by omega) (by omega)]
            ring
          · rw [show n - (n - q) = q by omega, h.disc q hq0 hq, ← hd, neg_mul, div_mul_cancel₀ _ hDq, add_neg_cancel]
    disc := by
      intro p h1 h2
      rw [hL p (by omega), disc_congr (hC p (by omega))]
      rcases Nat.lt_or_eq_of_le (Nat.le_of_lt_succ h2) with hp | rfl
      · exact h.disc p h1 hp
      · exact hd.symm
    bound := by
      intro p hp hne
      rw [hL p (by omega), hLv]
      rcases Nat.lt_or_eq_of_le (Nat.le_of_lt_succ hp) with hpv | rfl
      · have := h.bound p hpv hne
        omega
      · omega
    attained := by
      rw [hLv]
      by_cases hle : L q + (v - q) ≤ L v
      · exact ⟨q, by omega, hDq, by rw [hL q (by omega)]; omega⟩
      · exact ⟨v, by omega, h0, by rw [hL v (by omega)]; omega⟩ }

end Table

end Recurrence
