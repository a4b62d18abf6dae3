import Mathlib.Data.List.Basic
import Mathlib.Data.List.Induction

/-!
# Runs of a partial step function

A system takes calls and answers them; `step` is `none` where a call has no defined outcome, and no run goes past it.
A run is the list of the calls with their answers, the latest last, so an invariant may speak about everything that
was asked and answered before (`Run.rule`).
-/

variable {σ κ ρ : Type*}

/-- `Run step s log s'`: from `s`, the calls of `log` give its answers and lead to `s'`. -/
inductive Run (step : κ → σ → Option (ρ × σ)) (s : σ) : List (κ × ρ) → σ → Prop
  | nil : Run step s [] s
  | call {log : List (κ × ρ)} {s' s'' : σ} {c : κ} {r : ρ} (h : Run step s log s') (hc : step c s' = some (r, s'')) :
      Run step s (log ++ [(c, r)]) s''

/-- The calls one after the other, with their answers, if all of them have one. -/
def execute (step : κ → σ → Option (ρ × σ)) : List κ → σ → Option (List (κ × ρ) × σ)
  | [], s => some ([], s)
  | c :: cs, s =>
    match step c s with
    | some (r, s) =>
      match execute step cs s with
      | some (log, s) => some ((c, r) :: log, s)
      | none => none
    | none => none

/-- The calls of a log, with the log before each of them: those before the last one, and the last one. -/
theorem snoc_prefix_snoc {α : Type*} {l log : List α} {a b : α} :
    l ++ [a] <+: log ++ [b] ↔ l = log ∧ a = b ∨ l ++ [a] <+: log := by
  rw [List.prefix_concat_iff, List.append_singleton_inj]

namespace Run

variable {step : κ → σ → Option (ρ × σ)} {s s' s'' : σ} {log log' : List (κ × ρ)}

/-- An invariant that holds at the start, and is kept by every call behind a run, holds at the end of every run. -/
theorem rule_run (I : List (κ × ρ) → σ → Prop) (h0 : I [] s)
    (hs : ∀ log s' c r s'', Run step s log s' → I log s' → step c s' = some (r, s'') → I (log ++ [(c, r)]) s'')
    (h : Run step s log s') : I log s' := by
  induction h with
  | nil => exact h0
  | call h hc ih => exact hs _ _ _ _ _ h ih hc

/-- The same for an invariant that is kept by every call whatever the run before it. -/
theorem rule (I : List (κ × ρ) → σ → Prop) (h0 : I [] s)
    (hs : ∀ log s' c r s'', I log s' → step c s' = some (r, s'') → I (log ++ [(c, r)]) s'') (h : Run step s log s') :
    I log s' :=
  h.rule_run I h0 fun log s' c r s'' _ => hs log s' c r s''

theorem append (h : Run step s log s') (h' : Run step s' log' s'') : Run step s (log ++ log') s'' := by
  induction h' with
  | nil => rwa [List.append_nil]
  | call _ hc ih =>
    rw [← List.append_assoc]
    exact .call ih hc

theorem nil_inv (h : Run step s [] s') : s' = s := by
  generalize hl : ([] : List (κ × ρ)) = l at h
  cases h with
  | nil => rfl
  | call _ _ => exact absurd hl.symm (by simp)

theorem snoc_inv {c : κ} {r : ρ} (h : Run step s (log ++ [(c, r)]) s'') :
    ∃ s', Run step s log s' ∧ step c s' = some (r, s'') := by
  generalize hl : log ++ [(c, r)] = l at h
  cases h with
  | nil => exact absurd hl (by simp)
  | @call log' s' _ c' r' h hc =>
    obtain ⟨rfl, hcr⟩ := List.append_inj' hl rfl
    simp only [List.cons.injEq, Prod.mk.injEq, and_true] at hcr
    obtain ⟨rfl, rfl⟩ := hcr
    exact ⟨s', h, hc⟩

theorem split (h : Run step s (log ++ log') s'') : ∃ s', Run step s log s' ∧ Run step s' log' s'' := by
  induction log' using List.reverseRecOn generalizing s'' with
  | nil => exact ⟨s'', by rwa [List.append_nil] at h, .nil⟩
  | append_singleton log' entry ih =>
    rw [← List.append_assoc] at h
    obtain ⟨s1, h1, hc⟩ := h.snoc_inv
    obtain ⟨s', hs', hrest⟩ := ih h1
    exact ⟨s', hs', .call hrest hc⟩

theorem of_execute {cs : List κ} (h : execute step cs s = some (log, s')) : Run step s log s' := by
  induction cs generalizing s log with
  | nil =>
    obtain ⟨rfl, rfl⟩ := Prod.mk.inj (Option.some.inj h)
    exact .nil
  | cons c cs ih =>
    rw [execute] at h
    split at h
    · next r s1 hc =>
      split at h
      · next log1 s2 hcs =>
        obtain ⟨rfl, rfl⟩ := Prod.mk.inj (Option.some.inj h)
        exact append (.call .nil hc) (ih hcs)
      · cases h
    · cases h

/-- A run whose calls can be evaluated. -/
theorem exists_of_execute {τ : Type*} (step : κ → σ → Option (ρ × σ)) (s : σ) (cs : List κ)
    (f : List (κ × ρ) × σ → τ) (x : τ) (h : (execute step cs s).map f = some x) :
    ∃ log s', Run step s log s' ∧ f (log, s') = x := by
  obtain ⟨⟨log, s'⟩, hexec, hf⟩ := Option.map_eq_some_iff.1 h
  exact ⟨log, s', of_execute hexec, hf⟩

/-- A run leads to one state. -/
theorem deterministic (h : Run step s log s') (h' : Run step s log s'') : s' = s'' := by
  induction h generalizing s'' with
  | nil => exact h'.nil_inv.symm
  | call _ hc ih =>
    obtain ⟨t, ht, hc'⟩ := h'.snoc_inv
    obtain rfl := ih ht
    exact congrArg Prod.snd (Option.some.inj (hc.symm.trans hc'))

/-- The same run under other names for its calls. -/
theorem relabel {κ' : Type*} {step' : κ' → σ → Option (ρ × σ)} (f : κ → κ')
    (hf : ∀ c s r s', step c s = some (r, s') → step' (f c) s = some (r, s')) (h : Run step s log s') :
    Run step' s (log.map fun e => (f e.1, e.2)) s' := by
  induction h with
  | nil => exact .nil
  | call _ hc ih =>
    rw [List.map_append]
    exact .call ih (hf _ _ _ _ hc)

/-- Two parties that share a state: a relation with the state of the run that makes only the calls kept, which every
call keeps, shows that this is a run with the same answers. -/
theorem filter_rule {t : σ} (keep : κ → Bool) (ok : List (κ × ρ) → κ → σ → Prop) (R : List (κ × ρ) → σ → σ → Prop)
    (h0 : R [] s t)
    (hkeep : ∀ log s' t' c r s'', keep c = true → ok log c s' → R log s' t' → step c s' = some (r, s'') →
      ∃ t'', step c t' = some (r, t'') ∧ R (log ++ [(c, r)]) s'' t'')
    (hskip : ∀ log s' t' c r s'', keep c = false → R log s' t' → step c s' = some (r, s'') →
      R (log ++ [(c, r)]) s'' t')
    (h : Run step s log s')
    (hok : ∀ l c r s1, l ++ [(c, r)] <+: log → Run step s l s1 → keep c = true → ok l c s1) :
    ∃ t', Run step t (log.filter fun e => keep e.1) t' ∧ R log s' t' := by
  induction h with
  | nil => exact ⟨t, .nil, h0⟩
  | @call log s' s'' c r h hc ih =>
    obtain ⟨t', hrun, hR⟩ := ih fun l c r s1 hl => hok l c r s1 (hl.trans (List.prefix_append _ _))
    rw [List.filter_append]
    cases hkc : keep c with
    | true =>
      obtain ⟨t'', ht, hR'⟩ := hkeep log s' t' c r s'' hkc (hok log c r s' (List.prefix_refl _) h hkc) hR hc
      refine ⟨t'', ?_, hR'⟩
      rw [List.filter_singleton, show keep (c, r).1 = true from hkc, cond_true]
      exact .call hrun ht
    | false =>
      refine ⟨t', ?_, hskip log s' t' c r s'' hkc hR hc⟩
      rw [List.filter_singleton, show keep (c, r).1 = false from hkc, cond_false, List.append_nil]
      exact hrun

/-! ## Systems that record another one -/

section Record

variable {τ : Type*} {record : κ → τ → Option (ρ × τ)} {t t' : τ}

/-- A system whose calls are those of another one on a part of its state: its runs are runs of the other. -/
theorem project (f : τ → σ) (hf : ∀ c t r t', record c t = some (r, t') → step c (f t) = some (r, f t'))
    (h : Run record t log t') : Run step (f t) log (f t') := by
  induction h with
  | nil => exact .nil
  | call _ hc ih => exact .call ih (hf _ _ _ _ hc)

/-- A system that follows every call of another one follows its runs. -/
theorem follow (f : τ → σ)
    (hf : ∀ c t r s, step c (f t) = some (r, s) → ∃ t', record c t = some (r, t') ∧ f t' = s)
    (h : Run step (f t) log s) : ∃ t', Run record t log t' ∧ f t' = s := by
  generalize hs : f t = s0 at h
  induction h with
  | nil => exact ⟨t, .nil, hs⟩
  | call _ hc ih =>
    obtain ⟨t1, hrun, rfl⟩ := ih
    obtain ⟨t2, ht, hs2⟩ := hf _ _ _ _ hc
    exact ⟨t2, .call hrun ht, hs2⟩

end Record

end Run
