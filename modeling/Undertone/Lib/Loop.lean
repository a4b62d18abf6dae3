import Mathlib.Algebra.BigOperators.Intervals
import Mathlib.Logic.Function.Basic

/-!
# Counted loops over arrays

The two loops of a C program that run a known number of times, as functions on the state they change, with the
invariant rule of each (`forUp_rule`, `forDown_rule`) and the closed forms of the bodies that occur most: a write
at the loop's own index (`forUp_map`) and an accumulation read through a homomorphism (`forUp_sum`).
An array is a total function on its indices; what lies past its end is nobody's business here.
-/

namespace CountedLoop

variable {σ β : Type*}

/-- Run `body lo`, `body (lo + 1)`, ... for `n` rounds. -/
def iter (body : ℕ → σ → σ) (lo : ℕ) : ℕ → σ → σ
  | 0, s => s
  | n + 1, s => body (lo + n) (iter body lo n s)

/-- `for (i = lo; i < hi; i++) body` -/
def forUp (lo hi : ℕ) (body : ℕ → σ → σ) (s : σ) : σ := iter body lo (hi - lo) s

/-- `for (i = hi - 1; i >= lo; i--) body` -/
def forDown (lo hi : ℕ) (body : ℕ → σ → σ) (s : σ) : σ := iter (fun k => body (hi - 1 - k)) 0 (hi - lo) s

/-- `a[i][j] = v` -/
def set2 (a : ℕ → ℕ → β) (i j : ℕ) (v : β) : ℕ → ℕ → β := Function.update a i (Function.update (a i) j v)

/-! ## The rules -/

theorem iter_rule {f : ℕ → σ → σ} {a n : ℕ} {P : ℕ → σ → Prop} {s : σ} (h0 : P a s)
    (hs : ∀ i s, a ≤ i → i < a + n → P i s → P (i + 1) (f i s)) : P (a + n) (iter f a n s) := by
  induction n with
  | zero => exact h0
  | succ n ih =>
    exact hs (a + n) _ (Nat.le_add_right _ _) (by omega) (ih fun i s hl hu => hs i s hl (by omega))

/-- An invariant of an ascending loop, indexed by the counter. -/
theorem forUp_rule {a b : ℕ} {f : ℕ → σ → σ} {s : σ} (P : ℕ → σ → Prop) (hle : a ≤ b) (h0 : P a s)
    (hs : ∀ i s, a ≤ i → i < b → P i s → P (i + 1) (f i s)) : P b (forUp a b f s) := by
  have h := iter_rule (n := b - a) h0 fun i s hl hu => hs i s hl (by omega)
  rwa [Nat.add_sub_cancel' hle] at h

/-- An invariant of a descending loop, indexed by the number the counter has just left. -/
theorem forDown_rule {a b : ℕ} {f : ℕ → σ → σ} {s : σ} (P : ℕ → σ → Prop) (hle : a ≤ b) (h0 : P b s)
    (hs : ∀ i s, a ≤ i → i < b → P (i + 1) s → P i (f i s)) : P a (forDown a b f s) := by
  have h := iter_rule (f := fun k => f (b - 1 - k)) (a := 0) (s := s)
    (n := b - a) (P := fun k s => P (b - k) s) h0 fun k s _ hk hP => by
      have h1 : b - 1 - k + 1 = b - k := by omega
      have h2 : b - (k + 1) = b - 1 - k := by omega
      rw [h2]
      exact hs _ _ (by omega) (by omega) (h1 ▸ hP)
  have h3 : b - (0 + (b - a)) = a := by omega
  rwa [h3] at h

@[simp] theorem forUp_self (lo : ℕ) (body : ℕ → σ → σ) (s : σ) : forUp lo lo body s = s := by
  simp [forUp, iter]

theorem forUp_succ {lo hi : ℕ} (hle : lo ≤ hi) (body : ℕ → σ → σ) (s : σ) :
    forUp lo (hi + 1) body s = body hi (forUp lo hi body s) := by
  have h : hi + 1 - lo = hi - lo + 1 := by omega
  simp only [forUp, h, iter]
  rw [Nat.add_sub_cancel' hle]

/-! ## Closed forms -/

/-- A loop that rewrites each cell from its own old value. -/
theorem forUp_map (lo hi : ℕ) (g : ℕ → β → β) (a : ℕ → β) :
    forUp lo hi (fun i a => Function.update a i (g i (a i))) a =
      fun k => if lo ≤ k ∧ k < hi then g k (a k) else a k := by
  rcases Nat.lt_or_ge hi lo with hlt | hle
  · have h : hi - lo = 0 := by omega
    funext k
    rw [if_neg (by omega)]
    simp [forUp, h, iter]
  · refine forUp_rule (P := fun i b => b = fun k => if lo ≤ k ∧ k < i then g k (a k) else a k) hle ?_ ?_
    · funext k
      rw [if_neg (by omega)]
    · rintro i _ hl - rfl
      funext k
      by_cases hk : k = i
      · subst hk
        simp [hl]
      · rw [Function.update_of_ne hk]
        have h : (lo ≤ k ∧ k < i + 1) ↔ (lo ≤ k ∧ k < i) := by omega
        simp only [h]

/-- A loop that fills cells with values that do not depend on the array. -/
theorem forUp_fill (lo hi : ℕ) (g : ℕ → β) (a : ℕ → β) :
    forUp lo hi (fun i a => Function.update a i (g i)) a = fun k => if lo ≤ k ∧ k < hi then g k else a k :=
  forUp_map lo hi (fun i _ => g i) a

/-- A descending loop that rewrites each cell from its own old value and that of the cell below. -/
theorem forDown_shift {lo : ℕ} (_hlo : 1 ≤ lo) (hi : ℕ) (g : ℕ → β → β → β) (a : ℕ → β) :
    forDown lo hi (fun j a => Function.update a j (g j (a (j - 1)) (a j))) a =
      fun k => if lo ≤ k ∧ k < hi then g k (a (k - 1)) (a k) else a k := by
  rcases Nat.lt_or_ge hi lo with hlt | hle
  · have h : hi - lo = 0 := by omega
    funext k
    rw [if_neg (by omega)]
    simp [forDown, h, iter]
  · refine forDown_rule (P := fun j b => b = fun k => if j ≤ k ∧ k < hi then g k (a (k - 1)) (a k) else a k) hle ?_ ?_
    · funext k
      rw [if_neg (by omega)]
    · rintro j _ hl hu rfl
      funext k
      by_cases hk : k = j
      · subst hk
        simp [hu, show ¬ k < k - 1 by omega]
      · rw [Function.update_of_ne hk]
        have h : (j ≤ k ∧ k < hi) ↔ (j + 1 ≤ k ∧ k < hi) := by omega
        simp only [h]

/-- An accumulator whose meaning `φ` grows by `t i` in round `i`, as long as the accumulator stays in `S`. -/
theorem forUp_sum {M : Type*} [AddCommMonoid M] {a b : ℕ} {f : ℕ → σ → σ} {s : σ} (S : σ → Prop) (φ : σ → M)
    (t : ℕ → M) (hle : a ≤ b) (h0 : S s)
    (hs : ∀ i s, a ≤ i → i < b → S s → S (f i s) ∧ φ (f i s) = φ s + t i) :
    S (forUp a b f s) ∧ φ (forUp a b f s) = φ s + ∑ i ∈ Finset.Ico a b, t i := by
  refine forUp_rule (P := fun i s' => S s' ∧ φ s' = φ s + ∑ i ∈ Finset.Ico a i, t i) hle ⟨h0, by simp⟩ ?_
  rintro i s' hl hu ⟨hS, hφ⟩
  obtain ⟨h1, h2⟩ := hs i s' hl hu hS
  exact ⟨h1, by rw [h2, hφ, Finset.sum_Ico_succ_top hl, add_assoc]⟩

/-- A loop that adds up. -/
theorem forUp_add {M : Type*} [AddCommMonoid M] {lo hi : ℕ} (hle : lo ≤ hi) (t : ℕ → M) (x : M) :
    forUp lo hi (fun i x => x + t i) x = x + ∑ i ∈ Finset.Ico lo hi, t i :=
  (forUp_sum (f := fun i x => x + t i) (s := x) (fun _ => True) id t hle trivial fun _ _ _ _ _ => ⟨trivial, rfl⟩).2

/-- A loop that counts. -/
theorem forUp_count {R : Type*} [AddCommMonoidWithOne R] {lo hi : ℕ} (hle : lo ≤ hi) (p : ℕ → Prop)
    [DecidablePred p] :
    forUp lo hi (fun i n => if p i then n + 1 else n) (0 : R) = (((Finset.Ico lo hi).filter p).card : R) := by
  refine forUp_rule (P := fun i n => n = (((Finset.Ico lo i).filter p).card : R)) hle (by simp) ?_
  rintro i n hl - rfl
  rw [show i + 1 = i.succ from rfl, Nat.Ico_succ_right_eq_insert_Ico hl, Finset.filter_insert]
  split
  · rw [Finset.card_insert_of_notMem (by simp), Nat.cast_succ]
  · rfl

/-- A loop whose body depends on the counter only through values that agree. -/
theorem forUp_congr {lo hi : ℕ} {body body' : ℕ → σ → σ} (h : ∀ i s, lo ≤ i → i < hi → body i s = body' i s) (s : σ) :
    forUp lo hi body s = forUp lo hi body' s := by
  rcases Nat.lt_or_ge hi lo with hlt | hle
  · have h0 : hi - lo = 0 := by omega
    simp [forUp, h0, iter]
  · refine forUp_rule (P := fun i s' => s' = forUp lo i body' s) hle (by simp) ?_
    rintro i s' hl hu rfl
    rw [forUp_succ hl, h i _ hl hu]

/-- Two loops that run side by side. -/
theorem forUp_rel {τ : Type*} {a b : ℕ} {f : ℕ → σ → σ} {g : ℕ → τ → τ} (R : σ → τ → Prop) {s : σ} {t : τ}
    (h0 : R s t) (hs : ∀ i s t, a ≤ i → i < b → R s t → R (f i s) (g i t)) :
    R (forUp a b f s) (forUp a b g t) := by
  have h : ∀ n, a + n ≤ b → R (iter f a n s) (iter g a n t) := fun n => by
    induction n with
    | zero => exact fun _ => h0
    | succ n ih => exact fun hn => hs (a + n) _ _ (Nat.le_add_right _ _) (by omega) (ih (by omega))
  rcases Nat.lt_or_ge b a with hlt | hle
  · have hz : b - a = 0 := by omega
    simp only [forUp, hz]
    exact h0
  · exact h (b - a) (by omega)

/-! ## Two-dimensional writes -/

theorem set2_apply (a : ℕ → ℕ → β) (i j : ℕ) (v : β) (p q : ℕ) :
    set2 a i j v p q = if p = i ∧ q = j then v else a p q := by
  by_cases hp : p = i
  · subst hp
    by_cases hq : q = j
    · subst hq
      simp [set2]
    · simp [set2, hq]
  · simp [set2, hp]

/-! ## Loops that rewrite cells in place -/

/-- A loop that rewrites the cells at distinct indices, each from its own old value. -/
theorem forUp_modify {ι : Type*} [DecidableEq ι] {n : ℕ} {idx : ℕ → ι} (hidx : ∀ j < n, ∀ k < j, idx j ≠ idx k)
    (g : β → β) (a : ι → β) :
    forUp 0 n (fun j a => Function.update a (idx j) (g (a (idx j)))) a =
      fun q => if ∃ j < n, q = idx j then g (a q) else a q := by
  refine forUp_rule (P := fun j b => b = fun q => if ∃ k < j, q = idx k then g (a q) else a q) (Nat.zero_le n) ?_ ?_
  · simp
  · rintro j _ - hj rfl
    have hnew : ¬ ∃ k < j, idx j = idx k := fun ⟨k, hk, h⟩ => hidx j hj k hk h
    funext q
    by_cases hq : q = idx j
    · subst hq
      simp only [Function.update_self, if_neg hnew]
      rw [if_pos ⟨j, by omega, rfl⟩]
    · rw [Function.update_of_ne hq]
      apply if_congr _ rfl rfl
      constructor
      · rintro ⟨k, hk, h⟩
        exact ⟨k, by omega, h⟩
      · rintro ⟨k, hk, h⟩
        have hkj : k ≠ j := fun heq => hq (heq ▸ h)
        exact ⟨k, by omega, h⟩

/-- A loop that works on one cell of an array. -/
theorem forUp_update {ι : Type*} [DecidableEq ι] (lo hi : ℕ) (i : ι) (f : ℕ → β → β) (a : ι → β) :
    forUp lo hi (fun j a => Function.update a i (f j (a i))) a = Function.update a i (forUp lo hi f (a i)) := by
  refine forUp_rel (fun b x => b = Function.update a i x) (by simp) ?_
  rintro j _ x - - rfl
  rw [Function.update_self, Function.update_idem]

/-- Two nested loops over a block of distinct rows and columns, whose cells are each rewritten from their old values. -/
theorem forUp_block {m n : ℕ} {row col : ℕ → ℕ} (hrow : ∀ s < m, ∀ k < s, row s ≠ row k)
    (hcol : ∀ j < n, ∀ k < j, col j ≠ col k) (g : β → β) (a : ℕ → ℕ → β) :
    forUp 0 m (fun s a => forUp 0 n (fun j a => set2 a (row s) (col j) (g (a (row s) (col j)))) a) a =
      fun p q => if (∃ s < m, p = row s) ∧ ∃ j < n, q = col j then g (a p q) else a p q := by
  have hline : ∀ (s : ℕ) (a : ℕ → ℕ → β),
      forUp 0 n (fun j a => set2 a (row s) (col j) (g (a (row s) (col j)))) a =
        Function.update a (row s) fun q => if ∃ j < n, q = col j then g (a (row s) q) else a (row s) q := by
    intro s a
    rw [← forUp_modify hcol g (a (row s))]
    exact forUp_update 0 n (row s) (fun j line => Function.update line (col j) (g (line (col j)))) a
  simp only [hline]
  rw [forUp_modify hrow fun line q => if ∃ j < n, q = col j then g (line q) else line q]
  funext p q
  by_cases hp : ∃ s < m, p = row s
  · simp only [hp, true_and, if_true]
  · simp only [hp, false_and, if_false]

-- a loop is reasoned about by its rule, never by running it
attribute [irreducible] forUp forDown

end CountedLoop
