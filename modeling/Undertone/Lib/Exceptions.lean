import Mathlib.Data.Finset.Card
import Mathlib.Order.Interval.Finset.Nat

/-!
# All but a few

A property that at most `q` positions of an interval lack. Where an observer looks at an interval that begins a few
positions early, these are further exceptions (`AllBut.early`); where the exceptions are less than half of the interval,
the property has the majority (`AllBut.count`).
-/

/-- Of the positions `a ≤ i < b` at most `q` lack the property. -/
def AllBut (q : ℕ) (P : ℕ → Prop) (a b : ℕ) : Prop :=
  ∃ S : Finset ℕ, S.card ≤ q ∧ ∀ i, a ≤ i → i < b → i ∉ S → P i

namespace AllBut

variable {q q' a a' b b' : ℕ} {P P' : ℕ → Prop}

theorem of_forall (h : ∀ i, a ≤ i → i < b → P i) (q : ℕ) : AllBut q P a b :=
  ⟨∅, Nat.zero_le q, fun i ha hb _ => h i ha hb⟩

theorem of_count [DecidablePred P] (h : ((Finset.Ico a b).filter fun i => ¬ P i).card ≤ q) : AllBut q P a b := by
  refine ⟨_, h, fun i ha hb hi => ?_⟩
  by_contra hP
  exact hi (Finset.mem_filter.2 ⟨Finset.mem_Ico.2 ⟨ha, hb⟩, hP⟩)

theorem mono (h : AllBut q P a b) (hq : q ≤ q') (hP : ∀ i, a ≤ i → i < b → P i → P' i) : AllBut q' P' a b := by
  obtain ⟨S, hS, h⟩ := h
  exact ⟨S, hS.trans hq, fun i ha hb hi => hP i ha hb (h i ha hb hi)⟩

theorem sub (h : AllBut q P a b) (ha : a ≤ a') (hb : b' ≤ b) : AllBut q P a' b' := by
  obtain ⟨S, hS, h⟩ := h
  exact ⟨S, hS, fun i hi hi' => h i (ha.trans hi) (hi'.trans_le hb)⟩

/-- The interval begins up to `d` positions early. -/
theorem early (h : AllBut q P a b) {d : ℕ} (ha : a ≤ a' + d) : AllBut (q + d) P a' b := by
  obtain ⟨S, hS, h⟩ := h
  refine ⟨S ∪ Finset.Ico a' a, (Finset.card_union_le _ _).trans ?_, fun i hi hi' hmem => ?_⟩
  · rw [Nat.card_Ico]
    omega
  · rw [Finset.mem_union, Finset.mem_Ico, not_or] at hmem
    exact h i (by omega) hi' hmem.1

theorem shift (c : ℕ) : AllBut q P (c + a) (c + b) ↔ AllBut q (fun i => P (c + i)) a b := by
  constructor
  · rintro ⟨S, hS, h⟩
    refine ⟨S.image (· - c), Finset.card_image_le.trans hS, fun i ha hb hi => ?_⟩
    refine h (c + i) (by omega) (by omega) fun hmem => hi ?_
    exact Finset.mem_image.2 ⟨c + i, hmem, Nat.add_sub_cancel_left c i⟩
  · rintro ⟨S, hS, h⟩
    refine ⟨S.image (c + ·), Finset.card_image_le.trans hS, fun i ha hb hi => ?_⟩
    obtain ⟨j, rfl⟩ : ∃ j, i = c + j := ⟨i - c, by omega⟩
    exact h j (by omega) (by omega) fun hmem => hi (Finset.mem_image.2 ⟨j, hmem, rfl⟩)

/-- All positions but the exceptions have the property. -/
theorem count [DecidablePred P] (h : AllBut q P a b) : b - a ≤ ((Finset.Ico a b).filter P).card + q := by
  obtain ⟨S, hS, h⟩ := h
  have hcover : Finset.Ico a b ⊆ (Finset.Ico a b).filter P ∪ S := by
    intro i hi
    by_cases hmem : i ∈ S
    · exact Finset.mem_union_right _ hmem
    · have hrange := Finset.mem_Ico.1 hi
      exact Finset.mem_union_left _ (Finset.mem_filter.2 ⟨hi, h i hrange.1 hrange.2 hmem⟩)
  have hcard := (Finset.card_le_card hcover).trans (Finset.card_union_le _ _)
  rw [Nat.card_Ico] at hcard
  omega

end AllBut
