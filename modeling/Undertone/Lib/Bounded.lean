import Undertone.Lib.Loop

/-!
# Arrays of a given length

Reads and writes compared with the length of their array, and the counted loops over bodies made of them: an access
outside has no outcome. A loop all of whose rounds have the outcome of the unchecked rounds has the outcome of the
unchecked loop (`forUpM_eq`, `forDownM_rule`); a loop has an outcome if every round has one under an invariant
(`forUpM_total`) and only then (`forUpM_rounds`, `forDownM_stops`).
-/

namespace BoundedArray

open CountedLoop

universe u

variable {σ β : Type*}

/-- `a[i]`, where `a` has length `n`. -/
def get (n : ℕ) (a : ℕ → β) (i : ℤ) : Option β := if 0 ≤ i ∧ i < n then some (a i.toNat) else none

/-- `a[i] = v`, where `a` has length `n`. -/
def put (n : ℕ) (a : ℕ → β) (i : ℤ) (v : β) : Option (ℕ → β) :=
  if 0 ≤ i ∧ i < n then some (Function.update a i.toNat v) else none

/-- `a[i][j]`, where `a` is `m` by `n`. -/
def get2 (m n : ℕ) (a : ℕ → ℕ → β) (i j : ℤ) : Option β :=
  if (0 ≤ i ∧ i < m) ∧ 0 ≤ j ∧ j < n then some (a i.toNat j.toNat) else none

/-- `a[i][j] = v`, where `a` is `m` by `n`. -/
def put2 (m n : ℕ) (a : ℕ → ℕ → β) (i j : ℤ) (v : β) : Option (ℕ → ℕ → β) :=
  if (0 ≤ i ∧ i < m) ∧ 0 ≤ j ∧ j < n then some (set2 a i.toNat j.toNat v) else none

/-- `v[i]` of a vector. -/
def read (v : List β) (i : ℤ) : Option β := if 0 ≤ i then v[i.toNat]? else none

/-- `v[i] = x` of a vector. -/
def write (v : List β) (i : ℤ) (x : β) : Option (List β) :=
  if 0 ≤ i ∧ i < v.length then some (v.set i.toNat x) else none

/-- `for (i = lo; i < hi; i++) body` -/
def forUpM (lo hi : ℕ) (body : ℕ → σ → Option σ) (s : σ) : Option σ :=
  iter (fun i s => s.bind (body i)) lo (hi - lo) (some s)

/-- `for (i = hi - 1; i >= lo; i--) body` -/
def forDownM (lo hi : ℕ) (body : ℕ → σ → Option σ) (s : σ) : Option σ :=
  iter (fun k s => s.bind (body (hi - 1 - k))) 0 (hi - lo) (some s)

/-! ## Accesses -/

theorem get_eq {n : ℕ} {i : ℤ} (h0 : 0 ≤ i) (hn : i < n) (a : ℕ → β) : get n a i = some (a i.toNat) :=
  if_pos ⟨h0, hn⟩

theorem get_cast {n i : ℕ} (h : i < n) (a : ℕ → β) : get n a i = some (a i) :=
  if_pos ⟨Int.natCast_nonneg i, Int.ofNat_lt.2 h⟩

theorem get_inv {n : ℕ} {a : ℕ → β} {i : ℤ} {x : β} (h : get n a i = some x) : 0 ≤ i ∧ i < n := by
  unfold get at h
  split at h
  · assumption
  · exact absurd h (by simp)

theorem put_cast {n i : ℕ} (h : i < n) (a : ℕ → β) (v : β) : put n a i v = some (Function.update a i v) :=
  if_pos ⟨Int.natCast_nonneg i, Int.ofNat_lt.2 h⟩

theorem put_inv {n i : ℕ} {a a' : ℕ → β} {v : β} (h : put n a i v = some a') : i < n := by
  unfold put at h
  split at h
  · rename_i hin
    exact Int.ofNat_lt.1 hin.2
  · exact absurd h (by simp)

theorem get2_eq {m n i : ℕ} (hi : i < m) {j : ℤ} (h0 : 0 ≤ j) (hj : j < n) (a : ℕ → ℕ → β) :
    get2 m n a i j = some (a i j.toNat) :=
  if_pos ⟨⟨Int.natCast_nonneg i, Int.ofNat_lt.2 hi⟩, h0, hj⟩

theorem get2_inv {m n : ℕ} {a : ℕ → ℕ → β} {i j : ℤ} {x : β} (h : get2 m n a i j = some x) : 0 ≤ j ∧ j < n := by
  unfold get2 at h
  split at h
  · rename_i hin
    exact hin.2
  · exact absurd h (by simp)

theorem get2_cast {m n i j : ℕ} (hi : i < m) (hj : j < n) (a : ℕ → ℕ → β) : get2 m n a i j = some (a i j) :=
  if_pos ⟨⟨Int.natCast_nonneg i, Int.ofNat_lt.2 hi⟩, Int.natCast_nonneg j, Int.ofNat_lt.2 hj⟩

theorem put2_cast {m n i j : ℕ} (hi : i < m) (hj : j < n) (a : ℕ → ℕ → β) (v : β) :
    put2 m n a i j v = some (set2 a i j v) :=
  if_pos ⟨⟨Int.natCast_nonneg i, Int.ofNat_lt.2 hi⟩, Int.natCast_nonneg j, Int.ofNat_lt.2 hj⟩

theorem put2_outside {m n : ℕ} {i j : ℤ} (hj : n ≤ j) (a : ℕ → ℕ → β) (v : β) : put2 m n a i j v = none :=
  if_neg fun h => absurd h.2.2 (not_lt.2 hj)

theorem read_cast {v : List β} {i : ℕ} (h : i < v.length) : read v i = some v[i] :=
  (if_pos (Int.natCast_nonneg i)).trans (List.getElem?_eq_getElem h)

theorem read_some {v : List β} {i : ℤ} (h0 : 0 ≤ i) (h : i < v.length) : ∃ x, read v i = some x := by
  obtain ⟨k, rfl⟩ := Int.eq_ofNat_of_zero_le h0
  exact ⟨_, read_cast (Int.ofNat_lt.1 h)⟩

theorem read_inv {v : List β} {i : ℤ} {x : β} (h : read v i = some x) : 0 ≤ i ∧ i < v.length := by
  unfold read at h
  split at h
  · rename_i h0
    have := (List.getElem?_eq_some_iff.1 h).1
    omega
  · exact absurd h (by simp)

theorem write_cast {v : List β} {i : ℕ} (h : i < v.length) (x : β) : write v i x = some (v.set i x) :=
  if_pos ⟨Int.natCast_nonneg i, Int.ofNat_lt.2 h⟩

theorem write_some {v : List β} {i : ℤ} (h0 : 0 ≤ i) (h : i < v.length) (x : β) :
    ∃ v', write v i x = some v' ∧ v'.length = v.length :=
  ⟨_, if_pos ⟨h0, h⟩, List.length_set⟩

/-- A step that has an outcome, and the rest of the computation on it. -/
theorem then_eq {γ : Type u} {β : Type u} {x : Option β} {v : β} {f : β → Option γ} {r : Option γ} (h : x = some v)
    (hf : f v = r) : (x >>= f) = r := by
  rw [h]
  exact hf

theorem then_some {γ : Type u} {β : Type u} {x : Option β} {f : β → Option γ} (h : ∃ v, x = some v)
    (hf : ∀ v, ∃ r, f v = some r) : ∃ r, (x >>= f) = some r := by
  obtain ⟨v, hv⟩ := h
  obtain ⟨r, hr⟩ := hf v
  exact ⟨r, then_eq hv hr⟩

/-! ## Loops -/

theorem iter_bind {f : ℕ → σ → σ} {g : ℕ → σ → Option σ} {a n : ℕ} {s : σ} (P : ℕ → σ → Prop) (h0 : P a s)
    (hs : ∀ i s, a ≤ i → i < a + n → P i s → g i s = some (f i s) ∧ P (i + 1) (f i s)) :
    iter (fun i s => s.bind (g i)) a n (some s) = some (iter f a n s) := by
  induction n with
  | zero => rfl
  | succ n ih =>
    have hP := iter_rule (f := f) (n := n) h0 fun i s h1 h2 hP => (hs i s h1 (by omega) hP).2
    have hround := (hs (a + n) _ (Nat.le_add_right _ _) (by omega) hP).1
    rw [iter, iter, ih fun i s h1 h2 => hs i s h1 (by omega)]
    exact hround

/-- Under an invariant that makes every round that of the unchecked loop, so is the loop. -/
theorem forUpM_rule {a b : ℕ} {f : ℕ → σ → σ} {g : ℕ → σ → Option σ} {s : σ} (P : ℕ → σ → Prop) (h0 : P a s)
    (hs : ∀ i s, a ≤ i → i < b → P i s → g i s = some (f i s) ∧ P (i + 1) (f i s)) :
    forUpM a b g s = some (forUp a b f s) := by
  rw [forUpM, forUp]
  exact iter_bind P h0 fun i s h1 h2 => hs i s h1 (by omega)

theorem forDownM_rule {a b : ℕ} {f : ℕ → σ → σ} {g : ℕ → σ → Option σ} {s : σ} (P : ℕ → σ → Prop) (h0 : P b s)
    (hs : ∀ i s, a ≤ i → i < b → P (i + 1) s → g i s = some (f i s) ∧ P i (f i s)) :
    forDownM a b g s = some (forDown a b f s) := by
  rw [forDownM, forDown]
  refine iter_bind (f := fun k => f (b - 1 - k)) (g := fun k => g (b - 1 - k)) (a := 0) (n := b - a)
    (fun k s => P (b - k) s) h0 ?_
  intro k s _ hk hP
  have h1 : b - 1 - k + 1 = b - k := by omega
  have h2 : b - (k + 1) = b - 1 - k := by omega
  rw [h2]
  exact hs _ _ (by omega) (by omega) (h1 ▸ hP)

/-- The rounds only have to agree on the states that the unchecked loop goes through. -/
theorem forUpM_eq {a b : ℕ} {f : ℕ → σ → σ} {g : ℕ → σ → Option σ} {s : σ}
    (h : ∀ i, a ≤ i → i < b → g i (forUp a i f s) = some (f i (forUp a i f s))) :
    forUpM a b g s = some (forUp a b f s) := by
  refine forUpM_rule (fun i t => t = forUp a i f s) (forUp_self a f s).symm ?_
  rintro i _ h1 h2 rfl
  exact ⟨h i h1 h2, (forUp_succ h1 f s).symm⟩

theorem iter_bind_stops {f : ℕ → σ → σ} {g : ℕ → σ → Option σ} {a n : ℕ} {s : σ} (ok : ℕ → Prop) (P : ℕ → σ → Prop)
    (h0 : P a s)
    (hs : ∀ i s, a ≤ i → i < a + n → P i s →
      (ok i → g i s = some (f i s) ∧ P (i + 1) (f i s)) ∧ (¬ ok i → g i s = none))
    (hbad : ∃ i, a ≤ i ∧ i < a + n ∧ ¬ ok i) : iter (fun i s => s.bind (g i)) a n (some s) = none := by
  induction n with
  | zero =>
    obtain ⟨i, h1, h2, -⟩ := hbad
    omega
  | succ n ih =>
    rw [iter]
    by_cases hfirst : ∃ i, a ≤ i ∧ i < a + n ∧ ¬ ok i
    · rw [ih (fun i s h1 h2 => hs i s h1 (by omega)) hfirst]
      rfl
    · have hgood : ∀ i, a ≤ i → i < a + n → ok i := fun i h1 h2 => by
        by_contra hok
        exact hfirst ⟨i, h1, h2, hok⟩
      have hlast : ¬ ok (a + n) := by
        obtain ⟨i, h1, h2, hok⟩ := hbad
        obtain rfl : i = a + n := by
          by_contra hne
          exact hok (hgood i h1 (by omega))
        exact hok
      have hround : ∀ i s, a ≤ i → i < a + n → P i s → g i s = some (f i s) ∧ P (i + 1) (f i s) :=
        fun i s h1 h2 hP => (hs i s h1 (by omega) hP).1 (hgood i h1 h2)
      have hP := iter_rule (f := f) (n := n) h0 fun i s h1 h2 hP => (hround i s h1 h2 hP).2
      rw [iter_bind P h0 hround]
      exact (hs (a + n) _ (Nat.le_add_right _ _) (by omega) hP).2 hlast

/-- Rounds that have an outcome exactly where `ok` holds: one round without stops the loop. -/
theorem forDownM_stops {a b : ℕ} {f : ℕ → σ → σ} {g : ℕ → σ → Option σ} {s : σ} (ok : ℕ → Prop) (P : ℕ → σ → Prop)
    (h0 : P b s)
    (hs : ∀ i s, a ≤ i → i < b → P (i + 1) s →
      (ok i → g i s = some (f i s) ∧ P i (f i s)) ∧ (¬ ok i → g i s = none))
    (hbad : ∃ i, a ≤ i ∧ i < b ∧ ¬ ok i) : forDownM a b g s = none := by
  obtain ⟨i, h1, h2, hok⟩ := hbad
  rw [forDownM]
  refine iter_bind_stops (f := fun k => f (b - 1 - k)) (g := fun k => g (b - 1 - k)) (a := 0) (n := b - a)
    (fun k => ok (b - 1 - k)) (fun k s => P (b - k) s) h0 ?_ ⟨b - 1 - i, Nat.zero_le _, by omega, ?_⟩
  · intro k s _ hk hP
    have h1 : b - 1 - k + 1 = b - k := by omega
    have h2 : b - (k + 1) = b - 1 - k := by omega
    rw [h2]
    exact hs _ _ (by omega) (by omega) (h1 ▸ hP)
  · rwa [show b - 1 - (b - 1 - i) = i by omega]

/-- A loop whose rounds have an outcome and keep an invariant. -/
theorem forUpM_total {a b : ℕ} {g : ℕ → σ → Option σ} {s : σ} (P : ℕ → σ → Prop) (hle : a ≤ b) (h0 : P a s)
    (hs : ∀ i s, a ≤ i → i < b → P i s → ∃ s', g i s = some s' ∧ P (i + 1) s') :
    ∃ s', forUpM a b g s = some s' ∧ P b s' := by
  have hiter : ∀ n, a + n ≤ b → ∃ s', iter (fun i s => s.bind (g i)) a n (some s) = some s' ∧ P (a + n) s' := by
    intro n
    induction n with
    | zero => exact fun _ => ⟨s, rfl, h0⟩
    | succ n ih =>
      intro hn
      obtain ⟨t, ht, hP⟩ := ih (by omega)
      obtain ⟨s', hs', hP'⟩ := hs (a + n) t (Nat.le_add_right _ _) (by omega) hP
      exact ⟨s', by rw [iter, ht, Option.bind_some, hs'], hP'⟩
  obtain ⟨s', h, hP⟩ := hiter (b - a) (by omega)
  rw [Nat.add_sub_cancel' hle] at hP
  exact ⟨s', h, hP⟩

theorem forUpM_some {a b : ℕ} {g : ℕ → σ → Option σ} {s : σ}
    (hs : ∀ i s, a ≤ i → i < b → ∃ s', g i s = some s') : ∃ s', forUpM a b g s = some s' := by
  by_cases hle : a ≤ b
  · obtain ⟨s', h, -⟩ := forUpM_total (fun _ _ => True) hle trivial fun i s h1 h2 _ => by
      obtain ⟨s', hround⟩ := hs i s h1 h2
      exact ⟨s', hround, trivial⟩
    exact ⟨s', h⟩
  · have h0 : b - a = 0 := by omega
    exact ⟨s, by rw [forUpM, h0, iter]⟩

theorem forUpM_zero_succ (n : ℕ) (g : ℕ → σ → Option σ) (s : σ) :
    forUpM 0 (n + 1) g s = (forUpM 0 n g s).bind (g n) := by
  unfold forUpM
  rw [Nat.sub_zero, Nat.sub_zero, iter, Nat.zero_add]

/-- A loop on two variables, of which the first goes its own way: the second sees it as the result of its own loop. -/
theorem forUpM_snd {τ : Type*} {g : ℕ → σ → Option σ} {f : ℕ → σ → τ → Option τ}
    {b : ℕ → σ × τ → Option (σ × τ)}
    (hbody : ∀ i s t, b i (s, t) = (g i s).bind fun s' => (f i s' t).bind fun t' => some (s', t')) (n : ℕ) (s : σ)
    (t : τ) : (forUpM 0 n b (s, t)).map Prod.snd =
      forUpM 0 n (fun i t => (forUpM 0 (i + 1) g s).bind fun s' => f i s' t) t := by
  have hpair : ∀ n, forUpM 0 n b (s, t) = (forUpM 0 n g s).bind fun s' =>
      (forUpM 0 n (fun i t => (forUpM 0 (i + 1) g s).bind fun s' => f i s' t) t).bind fun t' => some (s', t') := by
    intro n
    induction n with
    | zero => rfl
    | succ n ih =>
      rw [forUpM_zero_succ, ih, forUpM_zero_succ, forUpM_zero_succ]
      cases hg : forUpM 0 n g s with
      | none => rfl
      | some s' =>
        cases hf : forUpM 0 n (fun i t => (forUpM 0 (i + 1) g s).bind fun s' => f i s' t) t with
        | none =>
          simp only [Option.bind_some, Option.bind_none]
          cases g n s' <;> rfl
        | some t' =>
          simp only [Option.bind_some, hbody, forUpM_zero_succ, hg]
          cases g n s' with
          | none => rfl
          | some s'' => rfl
  cases n with
  | zero => rfl
  | succ n =>
    rw [hpair]
    cases hg : forUpM 0 (n + 1) g s with
    | none =>
      rw [forUpM_zero_succ]
      simp only [hg, Option.bind_none, Option.map_none]
      cases forUpM 0 n (fun i t => (forUpM 0 (i + 1) g s).bind fun s' => f i s' t) t <;> rfl
    | some s' =>
      cases forUpM 0 (n + 1) (fun i t => (forUpM 0 (i + 1) g s).bind fun s' => f i s' t) t <;> rfl

/-- Steps with related outcomes, or both without, and related computations after them. -/
theorem rel_bind {α β γ δ : Type*} {R : α → β → Prop} {S : γ → δ → Prop} {x : Option α} {y : Option β}
    {f : α → Option γ} {g : β → Option δ} (h : Option.Rel R x y) (hfg : ∀ a b, R a b → Option.Rel S (f a) (g b)) :
    Option.Rel S (x.bind f) (y.bind g) := by
  cases h with
  | none => exact .none
  | some hab => exact hfg _ _ hab

/-- Two loops that run side by side. -/
theorem forUpM_rel {τ : Type*} {a b : ℕ} {f : ℕ → σ → Option σ} {g : ℕ → τ → Option τ} (R : σ → τ → Prop) {s : σ}
    {t : τ} (h0 : R s t) (hs : ∀ i s t, a ≤ i → i < b → R s t → Option.Rel R (f i s) (g i t)) :
    Option.Rel R (forUpM a b f s) (forUpM a b g t) := by
  have h : ∀ n, n ≤ b - a → Option.Rel R (iter (fun i s => s.bind (f i)) a n (some s))
      (iter (fun i t => t.bind (g i)) a n (some t)) := by
    intro n
    induction n with
    | zero => exact fun _ => .some h0
    | succ n ih =>
      exact fun hn => rel_bind (ih (by omega)) fun s t hst => hs (a + n) s t (Nat.le_add_right _ _) (by omega) hst
  exact h (b - a) le_rfl

/-- What every outcome of a round keeps holds of the outcome of the loop. -/
theorem forUpM_inv {a b : ℕ} {g : ℕ → σ → Option σ} {s s' : σ} (P : ℕ → σ → Prop) (hle : a ≤ b) (h0 : P a s)
    (hs : ∀ i s s', a ≤ i → i < b → P i s → g i s = some s' → P (i + 1) s') (h : forUpM a b g s = some s') :
    P b s' := by
  have hiter : ∀ n s', a + n ≤ b → iter (fun i s => s.bind (g i)) a n (some s) = some s' → P (a + n) s' := by
    intro n
    induction n with
    | zero => exact fun _ _ h => Option.some.inj h ▸ h0
    | succ n ih =>
      intro s' hn hs'
      obtain ⟨t, ht, hround⟩ := Option.bind_eq_some_iff.1 hs'
      exact hs (a + n) t s' (Nat.le_add_right _ _) (by omega) (ih t (by omega) ht) hround
  have hP := hiter (b - a) s' (by omega) h
  rwa [Nat.add_sub_cancel' hle] at hP

/-- Every round of a loop that has an outcome has one. -/
theorem forUpM_rounds {a b : ℕ} {g : ℕ → σ → Option σ} {s s' : σ} (h : forUpM a b g s = some s') {i : ℕ} (h1 : a ≤ i)
    (h2 : i < b) : ∃ t t', g i t = some t' := by
  have hiter : ∀ n s', iter (fun i s => s.bind (g i)) a n (some s) = some s' → i < a + n → ∃ t t', g i t = some t' := by
    intro n
    induction n with
    | zero => exact fun _ _ hn => absurd hn (by omega)
    | succ n ih =>
      intro s' hs' hn
      obtain ⟨t, ht, hround⟩ := Option.bind_eq_some_iff.1 hs'
      by_cases hlast : i = a + n
      · rw [hlast]
        exact ⟨t, s', hround⟩
      · exact ih t ht (by omega)
  exact hiter (b - a) s' h (by omega)

/-- A first round with no outcome leaves the loop without one. -/
theorem forUpM_none {a b : ℕ} (hab : a < b) {g : ℕ → σ → Option σ} {s : σ} (h : g a s = none) :
    forUpM a b g s = none := by
  have hiter : ∀ n, iter (fun i s => s.bind (g i)) a (n + 1) (some s) = none := fun n => by
    induction n with
    | zero => exact h
    | succ n ih => exact congrArg (Option.bind · _) ih
  obtain ⟨n, hn⟩ : ∃ n, b - a = n + 1 := ⟨b - a - 1, by omega⟩
  rw [forUpM, hn, hiter]

theorem forUpM_first {a b : ℕ} (hab : a < b) {g : ℕ → σ → Option σ} {s s' : σ} (h : forUpM a b g s = some s') :
    ∃ s₁, g a s = some s₁ := by
  refine Option.ne_none_iff_exists'.1 fun hnone => ?_
  rw [forUpM_none hab hnone] at h
  exact absurd h (by simp)

/-- Two nested loops over the cells of a table, the inner one over the rows: an invariant of the cells that are done. -/
theorem forUpM_grid {m n : ℕ} {f : ℕ → σ → Option σ} {g : ℕ → ℕ → σ → Option σ} {s : σ}
    (P : (ℕ → ℕ → Prop) → σ → Prop) (hbody : ∀ i s, i < n → f i s = forUpM 0 m (g i) s)
    (h0 : P (fun _ _ => False) s)
    (hs : ∀ D s i j, i < n → j < m → ¬D j i → P D s →
      ∃ s', g i j s = some s' ∧ P (fun j' i' => D j' i' ∨ j' = j ∧ i' = i) s') :
    ∃ s', forUpM 0 n f s = some s' ∧ P (fun j i => j < m ∧ i < n) s' := by
  have hempty : (fun j i => j < m ∧ i < 0) = fun _ _ => False := by
    funext j i
    exact propext ⟨fun h => absurd h.2 (Nat.not_lt_zero i), False.elim⟩
  refine forUpM_total (fun i s => P (fun j' i' => j' < m ∧ i' < i) s) (Nat.zero_le n) (hempty ▸ h0)
    fun i s _ hi hP => ?_
  have hstart : (fun j' i' => j' < m ∧ i' < i ∨ j' < 0 ∧ i' = i) = fun j' i' => j' < m ∧ i' < i := by
    funext j' i'
    exact propext ⟨fun h => h.resolve_right fun h' => Nat.not_lt_zero j' h'.1, Or.inl⟩
  obtain ⟨s', hloop, hP'⟩ := forUpM_total (g := g i) (fun j s => P (fun j' i' => j' < m ∧ i' < i ∨ j' < j ∧ i' = i) s)
    (Nat.zero_le m) (hstart ▸ hP) fun j s _ hj hP => by
      obtain ⟨s', hcell, hP'⟩ := hs _ s i j hi hj (by omega) hP
      refine ⟨s', hcell, ?_⟩
      have hnext : (fun j' i' => (j' < m ∧ i' < i ∨ j' < j ∧ i' = i) ∨ j' = j ∧ i' = i) =
          fun j' i' => j' < m ∧ i' < i ∨ j' < j + 1 ∧ i' = i := by
        funext j' i'
        exact propext ⟨fun h => by omega, fun h => by omega⟩
      exact hnext ▸ hP'
  refine ⟨s', (hbody i s hi).trans hloop, ?_⟩
  have hrow : (fun j' i' => j' < m ∧ i' < i ∨ j' < m ∧ i' = i) = fun j' i' => j' < m ∧ i' < i + 1 := by
    funext j' i'
    exact propext ⟨fun h => by omega, fun h => by omega⟩
  exact hrow ▸ hP'

end BoundedArray
