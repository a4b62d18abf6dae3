import Mathlib.Logic.Function.Basic
import Mathlib.Data.Nat.ModEq

/-!
# Ring buffers

A ring of `n` cells with a read and a write position. A stream is written into it cell by cell and read back in
windows that may overlap. `Holds` says what a ring with these positions stands for: the cells between the absolute
stream positions `a` and `b` hold the stream, so the fill level computed from the two wrapped positions is `b - a`
as long as fewer than `n` cells are in use. Writing extends `b`, reading advances `a`.
-/

namespace RingBuffer

variable {α : Type*}

/-- The number of unread cells, from the two positions. -/
def filled (n r w : ℕ) : ℕ := if w ≥ r then w - r else w + (n - r)

/-- `x` goes to the cell of the stream position `i`. -/
def put (n : ℕ) (cells : ℕ → α) (i : ℕ) (x : α) : ℕ → α := Function.update cells (i % n) x

/-- The cell of the stream position `i`. -/
def get (n : ℕ) (cells : ℕ → α) (i : ℕ) : α := cells (i % n)

/-! ## Fill level -/

theorem filled_mod {n a b : ℕ} (hab : a ≤ b) (hlt : b < a + n) : filled n (a % n) (b % n) = b - a := by
  obtain ⟨k, rfl⟩ : ∃ k, b = a + k := ⟨b - a, by omega⟩
  have hn : 0 < n := by omega
  have hr := Nat.mod_lt a hn
  have hmod : (a + k) % n = if a % n + k < n then a % n + k else a % n + k - n := by
    rw [Nat.add_mod, Nat.mod_eq_of_lt (by omega : k < n)]
    split
    · exact Nat.mod_eq_of_lt (by assumption)
    · rw [Nat.mod_eq_sub_mod (by omega)]
      exact Nat.mod_eq_of_lt (by omega)
  rw [filled, hmod]
  split <;> split <;> omega

/-- Moving the read position of a ring that is not empty takes one off the fill level. -/
theorem filled_read {n r w : ℕ} (hr : r < n) (hw : w < n) (h : 0 < filled n r w) :
    filled n ((r + 1) % n) w + 1 = filled n r w := by
  unfold filled at *
  by_cases hrn : r + 1 = n
  · rw [hrn, Nat.mod_self]
    split at h <;> split <;> omega
  · rw [Nat.mod_eq_of_lt (by omega : r + 1 < n)]
    split at h <;> split <;> omega

/-! ## Contents -/

/-- The cells of the stream positions `a ≤ i < b` hold the stream, and there are fewer than `n` of them. -/
structure Holds (n : ℕ) (cells : ℕ → α) (stream : ℕ → α) (a b : ℕ) : Prop where
  le : a ≤ b
  room : b < a + n
  cell : ∀ i, a ≤ i → i < b → get n cells i = stream i

theorem mod_ne {n a i j : ℕ} (hi : a ≤ i) (hij : i < j) (hj : j < a + n) : i % n ≠ j % n := by
  intro h
  have hd : n ∣ j - i := (Nat.modEq_iff_dvd' hij.le).1 h
  exact absurd (Nat.le_of_dvd (by omega) hd) (by omega)

theorem Holds.write {n : ℕ} {cells stream : ℕ → α} {a b : ℕ} (h : Holds n cells stream a b) (hroom : b + 1 < a + n)
    {x : α} (hx : x = stream b) : Holds n (put n cells b x) stream a (b + 1) := by
  refine ⟨by have := h.le; omega, hroom, fun i hi hb => ?_⟩
  by_cases hib : i = b
  · subst hib
    rw [get, put, Function.update_self, hx]
  · rw [get, put, Function.update_of_ne (mod_ne hi (by omega) (by omega))]
    exact h.cell i hi (by omega)

theorem Holds.read {n : ℕ} {cells stream : ℕ → α} {a b k : ℕ} (h : Holds n cells stream a b) (hk : a + k ≤ b) :
    Holds n cells stream (a + k) b :=
  ⟨hk, by have := h.room; omega, fun i hi hb => h.cell i (by omega) hb⟩

theorem Holds.filled {n : ℕ} {cells stream : ℕ → α} {a b : ℕ} (h : Holds n cells stream a b) :
    RingBuffer.filled n (a % n) (b % n) = b - a := filled_mod h.le h.room

/-- The cells hold the last `n` entries of the stream before `b`: the whole ring, whatever its read position. -/
def Latest (n : ℕ) (cells stream : ℕ → α) (b : ℕ) : Prop := ∀ i, b ≤ i + n → i < b → get n cells i = stream i

theorem Latest.write {n : ℕ} {cells stream : ℕ → α} {b : ℕ} (h : Latest n cells stream b) {x : α}
    (hx : x = stream b) : Latest n (put n cells b x) stream (b + 1) := by
  intro i hle hlt
  by_cases hib : i = b
  · subst hib
    rw [get, put, Function.update_self, hx]
  · rw [get, put, Function.update_of_ne (mod_ne (le_refl i) (by omega) (by omega))]
    exact h i (by omega) (by omega)

/-- Of the cells of the ring, those of the last `c` positions before `b` have the property and no others. -/
def Recent (n : ℕ) (p : ℕ → Prop) (b c : ℕ) : Prop := ∀ i < n, p ((b + i) % n) ↔ n ≤ i + c

theorem recent_none {n : ℕ} {p : ℕ → Prop} (h : ∀ i, ¬ p i) (b : ℕ) : Recent n p b 0 :=
  fun i hi => iff_of_false (h _) (by omega)

theorem Recent.congr {n : ℕ} {p : ℕ → Prop} {b b' c : ℕ} (h : Recent n p b c) (hb : b' % n = b % n) :
    Recent n p b' c := by
  intro i hi
  rw [Nat.add_mod, hb, ← Nat.add_mod]
  exact h i hi

theorem Recent.write {n : ℕ} {p : ℕ → Prop} {b c : ℕ} (h : Recent n p b c) (p' : ℕ → Prop) (hnew : p' (b % n))
    (hold : ∀ i, i ≠ b % n → (p' i ↔ p i)) : Recent n p' (b + 1) (c + 1) := by
  intro i hi
  have hpos : b + 1 + i = b + (i + 1) := by omega
  rw [hpos]
  by_cases hlast : i + 1 = n
  · rw [hlast, Nat.add_mod_right]
    exact iff_of_true hnew (by omega)
  · rw [hold _ (mod_ne (le_refl b) (by omega) (by omega)).symm, h (i + 1) (by omega)]
    omega

/-- The cells of the stream positions `a ≤ i < b`, with the numbers of their last writes, were written in this order. -/
def Ascending (n : ℕ) (stamps : ℕ → ℕ) (a b : ℕ) : Prop :=
  ∀ i j, a ≤ i → i < j → j < b → stamps (i % n) < stamps (j % n)

theorem ascending_empty (n : ℕ) (stamps : ℕ → ℕ) (a : ℕ) : Ascending n stamps a a :=
  fun _ _ hi hij hj => absurd hj (by omega)

theorem Ascending.write {n : ℕ} {stamps : ℕ → ℕ} {a b k : ℕ} (h : Ascending n stamps a b) (hroom : b < a + n)
    (hbound : ∀ i, stamps i < k) : Ascending n (put n stamps b k) a (b + 1) := by
  intro i j hi hij hj
  have hnew : put n stamps b k (b % n) = k := Function.update_self ..
  have hold : ∀ m, a ≤ m → m < b → put n stamps b k (m % n) = stamps (m % n) := fun m ha hb =>
    Function.update_of_ne (mod_ne ha hb hroom) ..
  rw [hold i hi (by omega)]
  rcases Nat.lt_succ_iff_lt_or_eq.1 hj with hjb | rfl
  · rw [hold j (by omega) hjb]
    exact h i j hi hij hjb
  · rw [hnew]
    exact hbound _

theorem Ascending.read {n : ℕ} {stamps : ℕ → ℕ} {a b : ℕ} (h : Ascending n stamps a b) : Ascending n stamps (a + 1) b :=
  fun i j hi hij hj => h i j (by omega) hij hj

theorem holds_empty {n : ℕ} (hn : 0 < n) (cells stream : ℕ → α) (a : ℕ) : Holds n cells stream a a :=
  ⟨le_rfl, by omega, fun i hi hb => absurd hb (by omega)⟩

end RingBuffer
