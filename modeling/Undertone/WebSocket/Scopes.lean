import Mathlib.Data.Finset.Card
import Mathlib.Data.Finset.Insert
import Mathlib.Logic.Function.Basic
import Undertone.Lib.Run

/-!
# Scopes: `ScopeRunner`

Every handler of a connection runs in a scope that `continue_lock` opens, and the destructor of the client calls `stop`
first. They share one atomic counter; a step is one operation on it, by any of the calls that are under way, and an
exchange may fail without a reason. `stop` returns exactly when no scope is open, and from then on none is opened, so
that what the handlers refer to may be destroyed; until then no handler is turned away (`stop_closes_scopes`).
-/

namespace Undertone

namespace SimpleWeb

/-- Where a call is, between two operations on the counter. -/
inductive Scope
  | outside
  /-- the loop of `continue_lock` -/
  | entering (expected : ℤ)
  /-- holds a `SharedLock` -/
  | inside
  /-- the loop of `stop` -/
  | stopping
deriving DecidableEq, Repr

structure ScopeRunner (κ : Type*) where
  count : ℤ
  scope : κ → Scope

namespace ScopeRunner

variable {κ : Type*}

def new : ScopeRunner κ := { count := 0, scope := fun _ => .outside }

inductive Move (κ : Type*)
  /-- `continue_lock` reads the counter -/
  | continue_lock (k : κ)
  /-- a round of its loop -/
  | enter (k : κ) (spurious : Bool)
  /-- `~SharedLock` -/
  | leave (k : κ)
  | stop (k : κ)
  /-- a round of its loop -/
  | close (k : κ) (spurious : Bool)

inductive Answer
  | none
  | locked
  /-- `continue_lock` returns `nullptr` -/
  | nullptr
  /-- `stop` returns -/
  | stopped
deriving DecidableEq, Repr

def setScope [DecidableEq κ] (k : κ) (p : Scope) (R : ScopeRunner κ) : ScopeRunner κ :=
  { R with scope := Function.update R.scope k p }

def step [DecidableEq κ] : Move κ → ScopeRunner κ → Option (Answer × ScopeRunner κ)
  | .continue_lock k, R =>
    match R.scope k with
    | .outside => some (.none, R.setScope k (.entering R.count))
    | _ => none
  | .enter k spurious, R =>
    match R.scope k with
    | .entering expected =>
      if expected < 0 then some (.nullptr, R.setScope k .outside)
      else if R.count = expected ∧ spurious = false then
        some (.locked, { R.setScope k .inside with count := expected + 1 })
      else some (.none, R.setScope k (.entering R.count))
    | _ => none
  | .leave k, R =>
    match R.scope k with
    | .inside => some (.none, { R.setScope k .outside with count := R.count - 1 })
    | _ => none
  | .stop k, R =>
    match R.scope k with
    | .outside => some (.none, R.setScope k .stopping)
    | _ => none
  | .close k spurious, R =>
    match R.scope k with
    | .stopping =>
      if R.count = 0 ∧ spurious = false then some (.stopped, { R.setScope k .outside with count := -1 })
      else if R.count < 0 then some (.stopped, R.setScope k .outside)
      else some (.none, R)
    | _ => none

/-- What a step can do. -/
inductive Does [DecidableEq κ] (R : ScopeRunner κ) : Move κ → Answer → ScopeRunner κ → Prop
  | read (k : κ) (h : R.scope k = .outside) : Does R (.continue_lock k) .none (R.setScope k (.entering R.count))
  | refuse (k : κ) (spurious : Bool) (expected : ℤ) (h : R.scope k = .entering expected) (hneg : expected < 0) :
      Does R (.enter k spurious) .nullptr (R.setScope k .outside)
  | lock (k : κ) (h : R.scope k = .entering R.count) (hpos : 0 ≤ R.count) :
      Does R (.enter k false) .locked { R.setScope k .inside with count := R.count + 1 }
  | retry (k : κ) (spurious : Bool) (expected : ℤ) (h : R.scope k = .entering expected) :
      Does R (.enter k spurious) .none (R.setScope k (.entering R.count))
  | leave (k : κ) (h : R.scope k = .inside) :
      Does R (.leave k) .none { R.setScope k .outside with count := R.count - 1 }
  | stop (k : κ) (h : R.scope k = .outside) : Does R (.stop k) .none (R.setScope k .stopping)
  | close (k : κ) (h : R.scope k = .stopping) (hzero : R.count = 0) :
      Does R (.close k false) .stopped { R.setScope k .outside with count := -1 }
  | closed (k : κ) (spurious : Bool) (h : R.scope k = .stopping) (hneg : R.count < 0) :
      Does R (.close k spurious) .stopped (R.setScope k .outside)
  | wait (k : κ) (spurious : Bool) (h : R.scope k = .stopping) (hpos : spurious = false → 0 < R.count) :
      Does R (.close k spurious) .none R

theorem step_cases [DecidableEq κ] {R R' : ScopeRunner κ} {m : Move κ} {a : Answer} (h : step m R = some (a, R')) :
    Does R m a R' := by
  cases m with
  | continue_lock k =>
    cases hk : R.scope k with
    | outside =>
      simp only [step, hk, Option.some.injEq, Prod.mk.injEq] at h
      obtain ⟨rfl, rfl⟩ := h
      exact .read k hk
    | entering _ | inside | stopping => simp [step, hk] at h
  | enter k spurious =>
    cases hk : R.scope k with
    | entering expected =>
      simp only [step, hk] at h
      by_cases hneg : expected < 0
      · rw [if_pos hneg] at h
        obtain ⟨rfl, rfl⟩ := Prod.mk.inj (Option.some.inj h)
        exact .refuse k spurious expected hk hneg
      · rw [if_neg hneg] at h
        by_cases hequal : R.count = expected ∧ spurious = false
        · rw [if_pos hequal] at h
          obtain ⟨rfl, rfl⟩ := Prod.mk.inj (Option.some.inj h)
          obtain ⟨rfl, rfl⟩ := hequal
          exact .lock k hk (by omega)
        · rw [if_neg hequal] at h
          obtain ⟨rfl, rfl⟩ := Prod.mk.inj (Option.some.inj h)
          exact .retry k spurious expected hk
    | outside | inside | stopping => simp [step, hk] at h
  | leave k =>
    cases hk : R.scope k with
    | inside =>
      simp only [step, hk, Option.some.injEq, Prod.mk.injEq] at h
      obtain ⟨rfl, rfl⟩ := h
      exact .leave k hk
    | outside | entering _ | stopping => simp [step, hk] at h
  | stop k =>
    cases hk : R.scope k with
    | outside =>
      simp only [step, hk, Option.some.injEq, Prod.mk.injEq] at h
      obtain ⟨rfl, rfl⟩ := h
      exact .stop k hk
    | entering _ | inside | stopping => simp [step, hk] at h
  | close k spurious =>
    cases hk : R.scope k with
    | stopping =>
      simp only [step, hk] at h
      by_cases hzero : R.count = 0 ∧ spurious = false
      · rw [if_pos hzero] at h
        obtain ⟨rfl, rfl⟩ := Prod.mk.inj (Option.some.inj h)
        obtain ⟨hzero, rfl⟩ := hzero
        exact .close k hk hzero
      · rw [if_neg hzero] at h
        by_cases hneg : R.count < 0
        · rw [if_pos hneg] at h
          obtain ⟨rfl, rfl⟩ := Prod.mk.inj (Option.some.inj h)
          exact .closed k spurious hk hneg
        · rw [if_neg hneg] at h
          obtain ⟨rfl, rfl⟩ := Prod.mk.inj (Option.some.inj h)
          exact .wait k spurious hk fun hs => lt_of_le_of_ne (by omega) fun h0 => hzero ⟨h0.symm, hs⟩
    | outside | entering _ | inside => simp [step, hk] at h

/-! ## The counter -/

/-- Some `stop` has returned. -/
def Stopped (log : List (Move κ × Answer)) : Prop := ∃ e ∈ log, e.2 = .stopped

theorem stopped_snoc {log : List (Move κ × Answer)} {m : Move κ} {a : Answer} :
    Stopped (log ++ [(m, a)]) ↔ Stopped log ∨ a = .stopped := by
  simp [Stopped, or_and_right, exists_or]

/-- The counter counts the open scopes, and is negative once a `stop` has returned; a call that has read a negative
value has read it after that. -/
structure Inv (log : List (Move κ × Answer)) (R : ScopeRunner κ) : Prop where
  counts : ∃ locks : Finset κ, (∀ k, k ∈ locks ↔ R.scope k = .inside) ∧
    (¬ Stopped log ∧ R.count = locks.card ∨ Stopped log ∧ R.count = -1 ∧ locks = ∅)
  entering : ∀ k expected, R.scope k = .entering expected → expected < 0 → Stopped log

variable {log : List (Move κ × Answer)} {R R' : ScopeRunner κ} {k : κ}

theorem inv_new : Inv [] (new : ScopeRunner κ) where
  counts := ⟨∅, by simp [new], .inl ⟨by simp [Stopped], by simp [new]⟩⟩
  entering k expected h _ := by simp [new] at h

/-- No scope is open if and only if the counter is not positive. -/
theorem Inv.closed (h : Inv log R) : (∀ k, R.scope k ≠ .inside) ↔ R.count ≤ 0 := by
  obtain ⟨locks, hlocks, hcount⟩ := h.counts
  have hempty : (∀ k, R.scope k ≠ .inside) ↔ locks = ∅ := by
    simp [Finset.eq_empty_iff_forall_notMem, hlocks]
  rw [hempty]
  rcases hcount with ⟨-, hcount⟩ | ⟨-, hcount, hnone⟩
  · rw [hcount, ← Finset.card_eq_zero]
    omega
  · simp [hnone, hcount]

theorem Inv.stopped_iff (h : Inv log R) : Stopped log ↔ R.count < 0 := by
  obtain ⟨locks, -, ⟨hlog, hcount⟩ | ⟨hlog, hcount, -⟩⟩ := h.counts
  · simp [hlog, hcount]
  · simp [hlog, hcount]

variable [DecidableEq κ]

@[simp] theorem setScope_count (k : κ) (p : Scope) (R : ScopeRunner κ) : (R.setScope k p).count = R.count := rfl

theorem setScope_scope (k : κ) (p : Scope) (R : ScopeRunner κ) (j : κ) :
    (R.setScope k p).scope j = if j = k then p else R.scope j := by
  simp [setScope, Function.update_apply]

/-- A step that opens and closes no scope and leaves the counter as it is. -/
theorem Inv.setScope (h : Inv log R) {p : Scope} (hk : R.scope k ≠ .inside) (hp : p ≠ .inside)
    (hread : ∀ expected, p = .entering expected → expected = R.count) {m : Move κ} {a : Answer}
    (ha : a = .stopped → Stopped log) : Inv (log ++ [(m, a)]) (R.setScope k p) := by
  have hlog : Stopped (log ++ [(m, a)]) ↔ Stopped log := by
    rw [stopped_snoc]
    exact ⟨fun h => h.elim id ha, Or.inl⟩
  constructor
  · obtain ⟨locks, hlocks, hcount⟩ := h.counts
    refine ⟨locks, fun j => ?_, by simpa [hlog] using hcount⟩
    rw [hlocks, setScope_scope]
    by_cases hj : j = k
    · simp [hj, hk, hp]
    · simp [hj]
  · intro j expected hj hneg
    rw [hlog]
    rw [setScope_scope] at hj
    by_cases hjk : j = k
    · rw [if_pos hjk] at hj
      rw [hread expected hj] at hneg
      exact h.stopped_iff.2 hneg
    · rw [if_neg hjk] at hj
      exact h.entering j expected hj hneg

/-- A scope is opened before any `stop` has returned. -/
theorem Inv.locked (h : Inv log R) (hk : R.scope k ≠ .inside) (hcount : 0 ≤ R.count) {m : Move κ} :
    Inv (log ++ [(m, .locked)]) { R.setScope k .inside with count := R.count + 1 } := by
  have hlog : Stopped (log ++ [(m, .locked)]) ↔ Stopped log := by simp [stopped_snoc]
  have hrun : ¬ Stopped log := fun hs => absurd (h.stopped_iff.1 hs) (by omega)
  constructor
  · obtain ⟨locks, hlocks, ⟨-, hcards⟩ | ⟨hs, -⟩⟩ := h.counts
    · have hnot : k ∉ locks := fun hmem => hk ((hlocks k).1 hmem)
      refine ⟨insert k locks, fun j => ?_, .inl ⟨fun hs => hrun (hlog.1 hs), ?_⟩⟩
      · rw [Finset.mem_insert, hlocks]
        show _ ↔ (R.setScope k .inside).scope j = .inside
        rw [setScope_scope]
        by_cases hj : j = k <;> simp [hj]
      · rw [Finset.card_insert_of_notMem hnot, hcards]
        rfl
    · exact absurd hs hrun
  · intro j expected hj hneg
    have hj : (R.setScope k .inside).scope j = .entering expected := hj
    rw [setScope_scope] at hj
    by_cases hjk : j = k
    · simp [hjk] at hj
    · rw [if_neg hjk] at hj
      exact hlog.2 (h.entering j expected hj hneg)

/-- A scope is closed. -/
theorem Inv.leave (h : Inv log R) (hk : R.scope k = .inside) {m : Move κ} :
    Inv (log ++ [(m, .none)]) { R.setScope k .outside with count := R.count - 1 } := by
  have hlog : Stopped (log ++ [(m, .none)]) ↔ Stopped log := by simp [stopped_snoc]
  obtain ⟨locks, hlocks, hcount⟩ := h.counts
  have hmem : k ∈ locks := (hlocks k).2 hk
  constructor
  · rcases hcount with ⟨hrun, hcards⟩ | ⟨-, -, hnone⟩
    · refine ⟨locks.erase k, fun j => ?_, .inl ⟨fun hs => hrun (hlog.1 hs), ?_⟩⟩
      · rw [Finset.mem_erase, hlocks]
        show _ ↔ (R.setScope k .outside).scope j = .inside
        rw [setScope_scope]
        by_cases hj : j = k <;> simp [hj]
      · have hpos := Finset.card_pos.2 ⟨k, hmem⟩
        rw [Finset.card_erase_of_mem hmem, hcards]
        show (locks.card : ℤ) - 1 = _
        omega
    · exact absurd hmem (by simp [hnone])
  · intro j expected hj hneg
    have hj : (R.setScope k .outside).scope j = .entering expected := hj
    rw [setScope_scope] at hj
    by_cases hjk : j = k
    · simp [hjk] at hj
    · rw [if_neg hjk] at hj
      exact hlog.2 (h.entering j expected hj hneg)

/-- The first `stop` returns. -/
theorem Inv.close (h : Inv log R) (hcount : R.count = 0) {m : Move κ} :
    Inv (log ++ [(m, .stopped)]) { R.setScope k .outside with count := -1 } := by
  have hclosed : ∀ j, R.scope j ≠ .inside := h.closed.2 (by omega)
  have hstopped : Stopped (log ++ [(m, .stopped)]) := stopped_snoc.2 (.inr rfl)
  constructor
  · refine ⟨∅, fun j => ?_, .inr ⟨hstopped, rfl, rfl⟩⟩
    show _ ↔ (R.setScope k .outside).scope j = .inside
    rw [setScope_scope]
    by_cases hj : j = k <;> simp [hj, hclosed]
  · exact fun _ _ _ _ => hstopped

theorem Inv.step (h : Inv log R) {m : Move κ} {a : Answer} (hstep : step m R = some (a, R')) :
    Inv (log ++ [(m, a)]) R' := by
  cases step_cases hstep with
  | read k hk => exact h.setScope (by simp [hk]) (by simp) (fun _ hp => (Scope.entering.inj hp).symm) (by simp)
  | refuse k spurious expected hk hneg => exact h.setScope (by simp [hk]) (by simp) (by simp) (by simp)
  | lock k hk hpos => exact h.locked (by simp [hk]) hpos
  | retry k spurious expected hk =>
    exact h.setScope (by simp [hk]) (by simp) (fun _ hp => (Scope.entering.inj hp).symm) (by simp)
  | leave k hk => exact h.leave hk
  | stop k hk => exact h.setScope (by simp [hk]) (by simp) (by simp) (by simp)
  | close k hk hzero => exact h.close hzero
  | closed k spurious hk hneg => exact h.setScope (by simp [hk]) (by simp) (by simp) fun _ => h.stopped_iff.2 hneg
  | wait k spurious hk hpos =>
    have hlog : Stopped (log ++ [(Move.close k spurious, Answer.none)]) ↔ Stopped log := by simp [stopped_snoc]
    exact ⟨by simpa [hlog] using h.counts, by simpa [hlog] using h.entering⟩

theorem run_inv (h : Run step (new : ScopeRunner κ) log R) : Inv log R :=
  h.rule Inv inv_new fun _ _ _ _ _ hinv hstep => hinv.step hstep

/-- In any order of the operations, and whatever exchanges fail: a `stop` returns only when no scope is open, and then
its next exchange lets it return; after that no scope is open or opened any more, and before that none is refused. -/
theorem stop_closes_scopes (h : Run step (new : ScopeRunner κ) log R) :
    (Stopped log → ∀ k, R.scope k ≠ .inside) ∧
      ∀ m a R', step m R = some (a, R') →
        (a = .locked → ¬ Stopped log) ∧ (a = .nullptr → Stopped log) ∧
        (a = .stopped → ∀ k, R.scope k ≠ .inside) ∧
        ∀ k, m = .close k false → (∀ j, R.scope j ≠ .inside) → a = .stopped := by
  have hinv := run_inv h
  have hstopped : Stopped log ↔ R.count < 0 := hinv.stopped_iff
  have hclosed : (∀ k, R.scope k ≠ .inside) ↔ R.count ≤ 0 := hinv.closed
  refine ⟨fun hs => hclosed.2 (hstopped.1 hs).le, fun m a R' hstep => ?_⟩
  rw [hstopped, hclosed]
  cases step_cases hstep with
  | refuse k spurious expected hk hneg =>
    have hread := hstopped.1 (hinv.entering k expected hk hneg)
    exact ⟨by simp, fun _ => hread, by simp, by simp⟩
  | lock k hk hpos => exact ⟨fun _ => not_lt.2 hpos, by simp, by simp, by simp⟩
  | close k hk hzero => exact ⟨by simp, by simp, fun _ => hzero.le, fun _ _ _ => rfl⟩
  | closed k spurious hk hneg => exact ⟨by simp, by simp, fun _ => hneg.le, fun _ _ _ => rfl⟩
  | wait k spurious hk hpos =>
    refine ⟨by simp, by simp, by simp, fun j hj hle => ?_⟩
    obtain ⟨-, rfl⟩ := Move.close.inj hj
    exact absurd hle (not_le.2 (hpos rfl))
  | read _ _ | retry _ _ _ _ | leave _ _ | stop _ _ => exact ⟨by simp, by simp, by simp, by simp⟩

/-- A handler is in its scope when the destructor begins, and the next one comes too late. -/
theorem stop_closes_scopes_handler : ∃ (log : List (Move Bool × Answer)) (R : ScopeRunner Bool),
    Run step new log R ∧ log.map Prod.snd = [.none, .locked, .none, .none, .none, .stopped, .none, .nullptr] ∧
      ∀ k, R.scope k ≠ .inside := by
  have hstart : Run step (new : ScopeRunner Bool) [] new := .nil
  have hhandler := ((hstart.call (c := .continue_lock true) rfl).call (c := .enter true false) rfl)
  have hwaits := (hhandler.call (c := .stop false) rfl).call (c := .close false false) rfl
  have hreturns := (hwaits.call (c := .leave true) rfl).call (c := .close false false) rfl
  have hrun := (hreturns.call (c := .continue_lock true) rfl).call (c := .enter true false) rfl
  exact ⟨_, _, hrun, rfl, (stop_closes_scopes hrun).1 (by simp [Stopped])⟩

end ScopeRunner

end SimpleWeb

end Undertone
