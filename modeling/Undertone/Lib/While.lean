import Mathlib.Order.Basic

/-!
# Loops on a condition

`while` and `do … while` loops over bodies that may have no outcome, with a number of rounds after which the model gives
up. A loop whose rounds keep an invariant and lower a measure ends with the invariant and without its condition, for
every number of rounds above the measure (`whileM_total`); more rounds change nothing (`whileM_mono`).
-/

namespace ConditionLoop

variable {σ : Type*}

/-- `while (cond) body`, with less than `fuel` rounds. -/
def whileM (cond : σ → Bool) (body : σ → Option σ) : ℕ → σ → Option σ
  | 0, _ => none
  | fuel + 1, s => if cond s then (body s).bind (whileM cond body fuel) else some s

/-- `do body while (cond)`, with at most `fuel` rounds. -/
def doWhileM (cond : σ → Bool) (body : σ → Option σ) (fuel : ℕ) (s : σ) : Option σ :=
  (body s).bind (whileM cond body fuel)

section Rules

variable {cond : σ → Bool} {body body' : σ → Option σ}

/-- More rounds, and a body with the same outcomes and more: a loop that ended ends alike. -/
theorem whileM_mono (hbody : ∀ {s s'}, body s = some s' → body' s = some s') {fuel fuel' : ℕ} {s s' : σ}
    (h : whileM cond body fuel s = some s') (hle : fuel ≤ fuel') : whileM cond body' fuel' s = some s' := by
  induction fuel generalizing fuel' s with
  | zero => simp [whileM] at h
  | succ fuel ih =>
    cases fuel' with
    | zero => exact absurd hle (Nat.not_succ_le_zero fuel)
    | succ fuel' =>
      rw [whileM] at h ⊢
      cases hc : cond s with
      | false =>
        rw [hc] at h
        exact h
      | true =>
        rw [hc, if_pos rfl] at h
        obtain ⟨s1, hs1, hrest⟩ := Option.bind_eq_some_iff.1 h
        rw [if_pos rfl, hbody hs1]
        exact ih hrest (Nat.le_of_succ_le_succ hle)

theorem doWhileM_mono {fuel fuel' : ℕ} {s s' : σ} (h : doWhileM cond body fuel s = some s') (hle : fuel ≤ fuel') :
    doWhileM cond body fuel' s = some s' := by
  obtain ⟨s1, hs1, hrest⟩ := Option.bind_eq_some_iff.1 h
  exact (congrArg (Option.bind · _) hs1).trans (whileM_mono id hrest hle)

/-- Total correctness: an invariant, and a measure that every round lowers. -/
theorem whileM_total (P : σ → Prop) (μ : σ → ℕ)
    (hs : ∀ s, P s → cond s = true → ∃ s', body s = some s' ∧ P s' ∧ μ s' < μ s) :
    ∀ (fuel : ℕ) (s : σ), P s → μ s < fuel → ∃ s', whileM cond body fuel s = some s' ∧ P s' ∧ cond s' = false := by
  intro fuel
  induction fuel with
  | zero => exact fun s _ hlt => absurd hlt (Nat.not_lt_zero _)
  | succ fuel ih =>
    intro s hP hlt
    rw [whileM]
    cases hc : cond s with
    | false => exact ⟨s, rfl, hP, hc⟩
    | true =>
      obtain ⟨s1, hbody, hP1, hless⟩ := hs s hP hc
      obtain ⟨s', hloop, hP', hend⟩ := ih s1 hP1 (by omega)
      refine ⟨s', ?_, hP', hend⟩
      rw [if_pos rfl, hbody]
      exact hloop

/-- The first round is made in any case. -/
theorem doWhileM_total (P : σ → Prop) (μ : σ → ℕ)
    (hs : ∀ s, P s → cond s = true → ∃ s', body s = some s' ∧ P s' ∧ μ s' < μ s) {s : σ} {fuel : ℕ}
    (h0 : ∃ s', body s = some s' ∧ P s' ∧ μ s' < fuel) :
    ∃ s', doWhileM cond body fuel s = some s' ∧ P s' ∧ cond s' = false := by
  obtain ⟨s1, hbody, hP1, hlt⟩ := h0
  obtain ⟨s', hloop, hP', hend⟩ := whileM_total P μ hs fuel s1 hP1 hlt
  exact ⟨s', (congrArg (Option.bind · _) hbody).trans hloop, hP', hend⟩

end Rules

end ConditionLoop
