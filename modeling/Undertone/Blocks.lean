import Mathlib.Algebra.Ring.Parity
import Mathlib.Order.Monotone.Basic
import Undertone.Chord

/-!
# The blocks of a message

From the frame that ended the start tokens on, `AnalyzeToken` cuts the frames into blocks of half a ring. The fill
level is known only modulo the size of the ring, and the read position of the next block is computed from the number
of blocks, not from what was read; for a ring of odd size it moves past the write position every second time. All the
same the blocks follow each other without drift: block `k` covers the frames from `blockStart N k` on, and is taken
with its last frame (`blocks_tile`).
-/

namespace Undertone

open CountedLoop RingBuffer Globals Core

namespace Analysis

variable {F D : Type} [Doubles D] [Floats F D] [CFFTOoura F]

/-! ## Calls of `AnalyzeToken` -/

/-- A call of `AnalyzeToken`: its frame, and what the decoder holds at the time. -/
structure TokenCall (F : Type) where
  g : Globals F
  mode : ℤ
  mDecoding : ℤ
  audioBuffer : ℕ → F

/-- The analysis after the first `m` calls. -/
def readTokens (t : ℕ) (calls : ℕ → TokenCall F) (A0 : Analysis F) : ℕ → Analysis F
  | 0 => A0
  | m + 1 => ((readTokens t calls A0 m).AnalyzeToken (calls m).g (calls m).mode (calls m).mDecoding t
      (calls m).audioBuffer).2

/-- The analysis in call `m` at the test of the loop: the frame is stored. -/
def atTest (t : ℕ) (calls : ℕ → TokenCall F) (A0 : Analysis F) (m : ℕ) : Analysis F :=
  advanceWritePos (storeSpectrum (calls m).audioBuffer (readTokens t calls A0 m))

/-- Call `m` takes a block. -/
def TakesBlock (t : ℕ) (calls : ℕ → TokenCall F) (A0 : Analysis F) (m : ℕ) : Prop :=
  (atTest t calls A0 m).getSizeFilledBlockCircularBuffer t ≥ (atTest t calls A0 m).mSizeBlockCircularBuffer / 2

instance (t : ℕ) (calls : ℕ → TokenCall F) (A0 : Analysis F) : DecidablePred (TakesBlock t calls A0) :=
  fun _ => inferInstanceAs (Decidable (_ ≥ _))

/-- The spectrum of the frame of call `i`. -/
def frameSpectrum (t : ℕ) (calls : ℕ → TokenCall F) (A0 : Analysis F) (i : ℕ) : ℕ → F :=
  ((readTokens t calls A0 i).mSpectralAnalysis.doFFT (calls i).audioBuffer).mSpecMag

variable {t : ℕ} {calls : ℕ → TokenCall F} {A0 : Analysis F} {m k : ℕ}

omit [Doubles D] [Floats F D] [CFFTOoura F] in
theorem blockStart_succ (N k : ℕ) :
    blockStart N k + N / 2 ≤ blockStart N (k + 1) ∧ blockStart N (k + 1) ≤ blockStart N k + N / 2 + 1 := by
  unfold blockStart
  rw [Nat.succ_mul]
  constructor <;> omega

omit [Doubles D] [Floats F D] [CFFTOoura F] in
theorem monotone_blockStart (N : ℕ) : Monotone (blockStart N) := by
  apply monotone_nat_of_le_succ
  intro k
  have := (blockStart_succ N k).1
  omega

omit [Doubles D] [Floats F D] [CFFTOoura F] in
/-- The fill level of a ring whose write position is one behind the read position. -/
theorem filled_full {n w : ℕ} (hw : w < n) : filled n ((w + 1) % n) w = n - 1 := by
  unfold filled
  by_cases hn : w + 1 = n
  · rw [hn, Nat.mod_self, if_pos (Nat.zero_le w)]
    omega
  · rw [Nat.mod_eq_of_lt (by omega), if_neg (by omega)]
    omega

/-- The analysis depends only on the calls so far. -/
theorem readTokens_congr {calls' : ℕ → TokenCall F} : ∀ {m : ℕ}, (∀ i < m, calls i = calls' i) →
    readTokens t calls A0 m = readTokens t calls' A0 m
  | 0, _ => rfl
  | m + 1, h => by
    unfold readTokens
    rw [readTokens_congr fun i hi => h i (Nat.lt_succ_of_lt hi), h m (Nat.lt_succ_self m)]

theorem readTokens_takes (h : TakesBlock t calls A0 m) : readTokens t calls A0 (m + 1) =
    (decodeBlock (calls m).g (calls m).mode (calls m).mDecoding t (atTest t calls A0 m)).2 :=
  congrArg Prod.snd (if_pos h)

theorem readTokens_stores (h : ¬ TakesBlock t calls A0 m) : readTokens t calls A0 (m + 1) = atTest t calls A0 m :=
  congrArg Prod.snd (if_neg h)

/-! ## The positions -/

/-- In a ring of `N` frames, `m` frames after the start tokens ended at `E`: `k` blocks are taken, and the next one
begins at the read position. -/
structure Placed (N E t m k : ℕ) (A : Analysis F) : Prop where
  size : A.mSizeBlockCircularBuffer = N
  start : A.mEndStartTokenPosInBlockCircularBuffer = E
  acc : A.mAccumulatedDecodingFrames = k * N
  read : (A.lane t).mReadPosInBlockCircularBuffer = (E + blockStart N k) % N
  write : A.mWritePosInBlockCircularBuffer = (E + m) % N
  begun : blockStart N k ≤ m + 1
  pending : m < blockStart N k + N / 2

section Placed

variable {N E : ℕ} {A : Analysis F}

omit [Doubles D] in
theorem Placed.store (h : Placed N E t m k A) (audioBuffer : ℕ → F) :
    (advanceWritePos (storeSpectrum audioBuffer A)).mWritePosInBlockCircularBuffer = (E + (m + 1)) % N := by
  have hw : (advanceWritePos (storeSpectrum audioBuffer A)).mWritePosInBlockCircularBuffer =
      (A.mWritePosInBlockCircularBuffer + 1) % A.mSizeBlockCircularBuffer := rfl
  rw [hw, h.write, h.size, Nat.mod_add_mod, Nat.add_assoc]

omit [Doubles D] in
/-- The fill level at the test is exact: it never counts a frame twice. -/
theorem Placed.filled (h : Placed N E t m k A) (h2 : 2 ≤ N) (audioBuffer : ℕ → F) :
    (advanceWritePos (storeSpectrum audioBuffer A)).getSizeFilledBlockCircularBuffer t = m + 1 - blockStart N k := by
  have hbegun := h.begun
  have hpending := h.pending
  have hsize : (advanceWritePos (storeSpectrum audioBuffer A)).mSizeBlockCircularBuffer = N := h.size
  have hread : ((advanceWritePos (storeSpectrum audioBuffer A)).lane t).mReadPosInBlockCircularBuffer =
      (E + blockStart N k) % N := h.read
  rw [getSizeFilledBlockCircularBuffer, hsize, hread, h.store, filled_mod (by omega) (by omega)]
  omega

/-- A call of `AnalyzeToken` takes a block exactly when its frame is the last one of the block. -/
theorem Placed.token (h : Placed N E t m k A) (h2 : 2 ≤ N) (g : Globals F) (mode mDecoding : ℤ)
    (audioBuffer : ℕ → F) :
    if m + 1 = blockStart N k + N / 2 then
      (AnalyzeToken g mode mDecoding t audioBuffer A) =
          decodeBlock g mode mDecoding t (advanceWritePos (storeSpectrum audioBuffer A)) ∧
        Placed N E t (m + 1) (k + 1) (AnalyzeToken g mode mDecoding t audioBuffer A).2
    else (AnalyzeToken g mode mDecoding t audioBuffer A) = (-1, advanceWritePos (storeSpectrum audioBuffer A)) ∧
      Placed N E t (m + 1) k (advanceWritePos (storeSpectrum audioBuffer A)) := by
  have hbegun := h.begun
  have hpending := h.pending
  have hfilled := h.filled h2 audioBuffer
  have hsize : (advanceWritePos (storeSpectrum audioBuffer A)).mSizeBlockCircularBuffer = N := h.size
  by_cases hlast : m + 1 = blockStart N k + N / 2
  · rw [if_pos hlast]
    have hfull : (advanceWritePos (storeSpectrum audioBuffer A)).getSizeFilledBlockCircularBuffer t ≥
        (advanceWritePos (storeSpectrum audioBuffer A)).mSizeBlockCircularBuffer / 2 := by
      rw [hfilled, hsize]
      omega
    have hstate : AnalyzeToken g mode mDecoding t audioBuffer A =
        decodeBlock g mode mDecoding t (advanceWritePos (storeSpectrum audioBuffer A)) := if_pos hfull
    obtain ⟨A', hkeep, hA'⟩ := decodeBlock_moves g mode mDecoding t (advanceWritePos (storeSpectrum audioBuffer A))
    refine ⟨hstate, ?_⟩
    rw [hstate, hA']
    have hstart : A'.mEndStartTokenPosInBlockCircularBuffer = E := hkeep.start.trans h.start
    have hacc : A'.mAccumulatedDecodingFrames + A'.mSizeBlockCircularBuffer = (k + 1) * N := by
      rw [hkeep.acc, hkeep.size, hsize, Nat.succ_mul, ← h.acc]
      rfl
    have hnext := blockStart_succ N k
    constructor
    · exact hkeep.size.trans hsize
    · exact hstart
    · exact hacc
    · have hread : ((consumeBlock t A').lane t).mReadPosInBlockCircularBuffer =
          (A'.mEndStartTokenPosInBlockCircularBuffer +
            (A'.mAccumulatedDecodingFrames + A'.mSizeBlockCircularBuffer + 1) / 2) % A'.mSizeBlockCircularBuffer := by
        simp [consumeBlock, setLane]
      rw [hread, hacc, hkeep.size, hsize, hstart]
      rfl
    · exact hkeep.write.trans (h.store audioBuffer)
    · omega
    · omega
  · rw [if_neg hlast]
    have hfull : ¬ (advanceWritePos (storeSpectrum audioBuffer A)).getSizeFilledBlockCircularBuffer t ≥
        (advanceWritePos (storeSpectrum audioBuffer A)).mSizeBlockCircularBuffer / 2 := by
      rw [hfilled, hsize]
      omega
    refine ⟨if_neg hfull, ?_⟩
    constructor
    · exact hsize
    · exact h.start
    · exact h.acc
    · exact h.read
    · exact h.store audioBuffer
    · omega
    · omega

end Placed

/-- What `AnalyzeToken` starts from. -/
structure MessageBegins (t : ℕ) (A0 : Analysis F) : Prop where
  wrapped : Wrapped A0
  read : (A0.lane t).mReadPosInBlockCircularBuffer = A0.mWritePosInBlockCircularBuffer
  start : A0.mEndStartTokenPosInBlockCircularBuffer = A0.mWritePosInBlockCircularBuffer
  acc : A0.mAccumulatedDecodingFrames = 0

omit [CFFTOoura F] in
theorem messageBegins_of_found {m : ℕ} {As A : Analysis F} (h : searchModes m 0 As = (1 + (t : ℤ), A)) :
    MessageBegins t (resetConfidence A) := by
  obtain ⟨hw, s, B, -, hs, rfl⟩ := searchModes_found (fun h => absurd rfl h) h (by omega)
  obtain rfl : t = s := by omega
  constructor
  · exact hw
  · simp [resetConfidence, beginMessage, setLane]
  · rfl
  · rfl

omit [Doubles D] [Floats F D] [CFFTOoura F] in
theorem MessageBegins.placed (h : MessageBegins t A0) (h2 : 2 ≤ A0.mSizeBlockCircularBuffer) :
    Placed A0.mSizeBlockCircularBuffer A0.mWritePosInBlockCircularBuffer t 0 0 A0 := by
  constructor
  · rfl
  · exact h.start
  · rw [Nat.zero_mul]
    exact h.acc
  · rw [blockStart, Nat.zero_mul]
    exact h.read.trans h.wrapped.symm
  · exact h.wrapped.symm
  · simp [blockStart]
  · rw [blockStart, Nat.zero_mul]
    omega

/-! ## The invariant -/

/-- After `m` calls `k` blocks are taken, the blocks before `k` have ended, and the ring holds the last frames. -/
structure Tiles (t : ℕ) (calls : ℕ → TokenCall F) (A0 : Analysis F) (m k : ℕ) : Prop where
  placed : Placed A0.mSizeBlockCircularBuffer A0.mWritePosInBlockCircularBuffer t m k (readTokens t calls A0 m)
  spec : (readTokens t calls A0 m).mSpectralAnalysis.mSpecSize = A0.mSpectralAnalysis.mSpecSize
  ended : ∀ j < k, blockStart A0.mSizeBlockCircularBuffer j + A0.mSizeBlockCircularBuffer / 2 ≤ m
  cells : ∀ i < m, m ≤ i + A0.mSizeBlockCircularBuffer → ∀ bin < A0.mSpectralAnalysis.mSpecSize,
    (readTokens t calls A0 m).mBlockSpecMag
      ((A0.mWritePosInBlockCircularBuffer + i) % A0.mSizeBlockCircularBuffer) bin = frameSpectrum t calls A0 i bin

theorem Tiles.test_size (h : Tiles t calls A0 m k) :
    (atTest t calls A0 m).mSizeBlockCircularBuffer = A0.mSizeBlockCircularBuffer := h.placed.size

theorem Tiles.test_read (h : Tiles t calls A0 m k) : ((atTest t calls A0 m).lane t).mReadPosInBlockCircularBuffer =
    (A0.mWritePosInBlockCircularBuffer + blockStart A0.mSizeBlockCircularBuffer k) % A0.mSizeBlockCircularBuffer :=
  h.placed.read

/-- Storing a frame overwrites the oldest one of the ring. -/
theorem Tiles.test_cells (h : Tiles t calls A0 m k) : ∀ i < m + 1, m + 1 ≤ i + A0.mSizeBlockCircularBuffer →
    ∀ bin < A0.mSpectralAnalysis.mSpecSize, (atTest t calls A0 m).mBlockSpecMag
      ((A0.mWritePosInBlockCircularBuffer + i) % A0.mSizeBlockCircularBuffer) bin = frameSpectrum t calls A0 i bin := by
  intro i hi hold bin hbin
  have hpos : (readTokens t calls A0 m).mWritePosInBlockCircularBuffer %
      (readTokens t calls A0 m).mSizeBlockCircularBuffer =
      (A0.mWritePosInBlockCircularBuffer + m) % A0.mSizeBlockCircularBuffer := by
    rw [h.placed.write, h.placed.size, Nat.mod_mod]
  have hspec : bin < (SpectralAnalysis.doFFT (readTokens t calls A0 m).mSpectralAnalysis
      (calls m).audioBuffer).mSpecSize := h.spec ▸ hbin
  simp only [atTest, advanceWritePos, storeSpectrum, hpos]
  by_cases him : i = m
  · subst him
    rw [Function.update_self, if_pos hspec]
    rfl
  · have hne : (A0.mWritePosInBlockCircularBuffer + i) % A0.mSizeBlockCircularBuffer ≠
        (A0.mWritePosInBlockCircularBuffer + m) % A0.mSizeBlockCircularBuffer :=
      mod_ne (le_refl _) (by omega) (by omega)
    rw [Function.update_of_ne hne]
    exact h.cells i (by omega) (by omega) bin hbin

theorem Tiles.takes_iff (h : Tiles t calls A0 m k) (h2 : 2 ≤ A0.mSizeBlockCircularBuffer) :
    TakesBlock t calls A0 m ↔ m + 1 = blockStart A0.mSizeBlockCircularBuffer k + A0.mSizeBlockCircularBuffer / 2 := by
  have hbegun := h.placed.begun
  have hpending := h.placed.pending
  have hfilled : (atTest t calls A0 m).getSizeFilledBlockCircularBuffer t = _ := h.placed.filled h2 _
  unfold TakesBlock
  rw [hfilled, h.test_size]
  omega

/-- A call that takes no block. -/
theorem Tiles.stores (h : Tiles t calls A0 m k) (h2 : 2 ≤ A0.mSizeBlockCircularBuffer)
    (hm : ¬ TakesBlock t calls A0 m) : Tiles t calls A0 (m + 1) k := by
  have hstate := readTokens_stores hm
  rw [h.takes_iff h2] at hm
  have htoken := h.placed.token h2 (calls m).g (calls m).mode (calls m).mDecoding (calls m).audioBuffer
  rw [if_neg hm] at htoken
  constructor
  · rw [hstate]
    exact htoken.2
  · rw [hstate]
    exact h.spec
  · intro j hj
    have hend := h.ended j hj
    omega
  · rw [hstate]
    exact h.test_cells

/-- A call that takes a block. -/
theorem Tiles.takes (h : Tiles t calls A0 m k) (h2 : 2 ≤ A0.mSizeBlockCircularBuffer) (hm : TakesBlock t calls A0 m) :
    Tiles t calls A0 (m + 1) (k + 1) := by
  have hstate := readTokens_takes hm
  obtain ⟨A, hkeep, hA⟩ := decodeBlock_moves (calls m).g (calls m).mode (calls m).mDecoding t (atTest t calls A0 m)
  rw [hA] at hstate
  rw [h.takes_iff h2] at hm
  have htoken := h.placed.token h2 (calls m).g (calls m).mode (calls m).mDecoding (calls m).audioBuffer
  rw [if_pos hm] at htoken
  constructor
  · exact htoken.2
  · rw [hstate]
    exact (congrArg SpectralAnalysis.mSpecSize hkeep.spectral).trans h.spec
  · intro j hj
    rcases Nat.lt_succ_iff_lt_or_eq.1 hj with hlt | rfl
    · have hend := h.ended j hlt
      omega
    · omega
  · intro i hi hold bin hbin
    rw [hstate]
    refine Eq.trans ?_ (h.test_cells i hi hold bin hbin)
    exact congrFun (congrFun hkeep.mag _) bin

/-- The state after `m` calls, with the number of blocks that the calls before took. -/
theorem MessageBegins.tiles (h : MessageBegins t A0) (h2 : 2 ≤ A0.mSizeBlockCircularBuffer) (calls : ℕ → TokenCall F) :
    ∀ m, Tiles t calls A0 m (Nat.count (TakesBlock t calls A0) m)
  | 0 => by
    rw [Nat.count_zero]
    constructor
    · exact h.placed h2
    · rfl
    · intro j hj
      exact absurd hj (Nat.not_lt_zero j)
    · intro i hi
      exact absurd hi (Nat.not_lt_zero i)
  | m + 1 => by
    have ih := h.tiles h2 calls m
    rw [Nat.count_succ]
    by_cases hm : TakesBlock t calls A0 m
    · rw [if_pos hm]
      exact ih.takes h2 hm
    · rw [if_neg hm]
      exact ih.stores h2 hm

/-- The call that stores the last frame of block `k` takes it, as the `k`-th block, counted from 0. -/
theorem MessageBegins.block (h : MessageBegins t A0) (h2 : 2 ≤ A0.mSizeBlockCircularBuffer) (calls : ℕ → TokenCall F)
    (hm : m + 1 = blockStart A0.mSizeBlockCircularBuffer k + A0.mSizeBlockCircularBuffer / 2) :
    TakesBlock t calls A0 m ∧ Nat.count (TakesBlock t calls A0) m = k := by
  have hT := h.tiles h2 calls m
  have hk : Nat.count (TakesBlock t calls A0) m = k := by
    have hpending := hT.placed.pending
    rcases Nat.lt_trichotomy (Nat.count (TakesBlock t calls A0) m) k with hlt | heq | hgt
    · have hnext := (blockStart_succ A0.mSizeBlockCircularBuffer (Nat.count (TakesBlock t calls A0) m)).1
      have hle := monotone_blockStart A0.mSizeBlockCircularBuffer (Nat.succ_le_of_lt hlt)
      simp only [Nat.succ_eq_add_one] at hle
      omega
    · exact heq
    · have hend := hT.ended k hgt
      omega
  refine ⟨?_, hk⟩
  rw [hT.takes_iff h2, hk]
  exact hm

/-! ## The tiling -/

/-- Frame `i` is one of the `k`-th block, counted from 1. -/
def InBlock (N k i : ℕ) : Prop := blockStart N (k - 1) ≤ i ∧ i < blockStart N (k - 1) + N / 2

omit [Doubles D] [Floats F D] [CFFTOoura F] in
theorem InBlock.unique {N j k i : ℕ} (hj : 1 ≤ j) (hk : 1 ≤ k) (h : InBlock N j i) (h' : InBlock N k i) : j = k := by
  have hlt : ∀ a b, 1 ≤ a → a < b → blockStart N (a - 1) + N / 2 ≤ blockStart N (b - 1) := by
    intro a b ha hab
    have hnext := (blockStart_succ N (a - 1)).1
    have hle := monotone_blockStart N (show a - 1 + 1 ≤ b - 1 by omega)
    omega
  obtain ⟨h1, h2⟩ := h
  obtain ⟨h1', h2'⟩ := h'
  rcases Nat.lt_trichotomy j k with hjk | heq | hkj
  · have := hlt j k hj hjk
    omega
  · exact heq
  · have := hlt k j hk hkj
    omega

/-- The cells of a block hold the spectra of its frames when it is taken. -/
theorem MessageBegins.block_cells (h : MessageBegins t A0) (h2 : 2 ≤ A0.mSizeBlockCircularBuffer)
    (calls : ℕ → TokenCall F)
    (hm : m + 1 = blockStart A0.mSizeBlockCircularBuffer k + A0.mSizeBlockCircularBuffer / 2) {i bin : ℕ}
    (hi : i < A0.mSizeBlockCircularBuffer / 2) (hbin : bin < A0.mSpectralAnalysis.mSpecSize) :
    (atTest t calls A0 m).mBlockSpecMag ((atTest t calls A0 m).blockPos t i) bin =
      frameSpectrum t calls A0 (blockStart A0.mSizeBlockCircularBuffer k + i) bin := by
  have hT := h.tiles h2 calls m
  rw [(h.block h2 calls hm).2] at hT
  have hpos : (atTest t calls A0 m).blockPos t i =
      (A0.mWritePosInBlockCircularBuffer + (blockStart A0.mSizeBlockCircularBuffer k + i)) %
        A0.mSizeBlockCircularBuffer := by
    rw [blockPos, hT.test_size, hT.test_read, Nat.mod_add_mod, Nat.add_assoc]
  rw [hpos]
  apply hT.test_cells
  · omega
  · omega
  · exact hbin

/-- A call that finds the read position one ahead of the write position takes no block: with its frame the ring looks
empty. -/
theorem MessageBegins.overtaken (h : MessageBegins t A0) (h2 : 2 ≤ A0.mSizeBlockCircularBuffer)
    (hread : ((readTokens t calls A0 m).lane t).mReadPosInBlockCircularBuffer =
      ((readTokens t calls A0 m).mWritePosInBlockCircularBuffer + 1) % A0.mSizeBlockCircularBuffer) :
    ¬ TakesBlock t calls A0 m := by
  have hT := h.tiles h2 calls m
  have hempty : (atTest t calls A0 m).getSizeFilledBlockCircularBuffer t = 0 := by
    have hcaught : ((atTest t calls A0 m).lane t).mReadPosInBlockCircularBuffer =
        (atTest t calls A0 m).mWritePosInBlockCircularBuffer := by
      refine hread.trans ?_
      rw [← hT.placed.size]
      rfl
    unfold getSizeFilledBlockCircularBuffer
    rw [hcaught]
    simp [filled]
  unfold TakesBlock
  rw [hempty, hT.test_size]
  omega

/-- For a ring of odd size the test of the loop never finds the read position one ahead of the write position. -/
theorem MessageBegins.not_full (h : MessageBegins t A0) (h2 : 2 ≤ A0.mSizeBlockCircularBuffer)
    (hodd : A0.mSizeBlockCircularBuffer % 2 = 1) (calls : ℕ → TokenCall F) (m : ℕ) :
    ((atTest t calls A0 m).lane t).mReadPosInBlockCircularBuffer ≠
      ((atTest t calls A0 m).mWritePosInBlockCircularBuffer + 1) % A0.mSizeBlockCircularBuffer := by
  intro hread
  have hT := h.tiles h2 calls m
  have hfilled : (atTest t calls A0 m).getSizeFilledBlockCircularBuffer t = _ := hT.placed.filled h2 _
  have hpending := hT.placed.pending
  have hwrite : (atTest t calls A0 m).mWritePosInBlockCircularBuffer = _ := hT.placed.store _
  have hw : (atTest t calls A0 m).mWritePosInBlockCircularBuffer < A0.mSizeBlockCircularBuffer := by
    rw [hwrite]
    exact Nat.mod_lt _ (by omega)
  rw [getSizeFilledBlockCircularBuffer, hread, hT.test_size, filled_full hw] at hfilled
  omega

/-- The `k`-th block is taken by the call that stores its last frame, by no other call, and its cells hold the spectra
of its frames, which are those of no other block. A call that finds the read position one ahead of the write position
takes none, and for a ring of odd size the test of the loop never sees these positions. -/
theorem blocks_tile {lanes : ℕ} {As A : Analysis F} {audioBuffer : ℕ → F} (hN : 2 ≤ A.mSizeBlockCircularBuffer)
    (hstart : As.AnalyzeStartTokens lanes audioBuffer = (1 + (t : ℤ), A)) (calls : ℕ → TokenCall F) :
    ((A.lane t).mReadPosInBlockCircularBuffer = A.mWritePosInBlockCircularBuffer) ∧
    (∀ k, 1 ≤ k → ∃ m, m + 1 = blockStart A.mSizeBlockCircularBuffer (k - 1) + A.mSizeBlockCircularBuffer / 2 ∧
      TakesBlock t calls (resetConfidence A) m ∧ Nat.count (TakesBlock t calls (resetConfidence A)) m = k - 1 ∧
      ∀ i < A.mSizeBlockCircularBuffer / 2, ∀ bin < A.mSpectralAnalysis.mSpecSize,
        (atTest t calls (resetConfidence A) m).mBlockSpecMag
            ((atTest t calls (resetConfidence A) m).blockPos t i) bin =
          frameSpectrum t calls (resetConfidence A) (blockStart A.mSizeBlockCircularBuffer (k - 1) + i) bin) ∧
    (∀ m, TakesBlock t calls (resetConfidence A) m → ∃ k, 1 ≤ k ∧
      m + 1 = blockStart A.mSizeBlockCircularBuffer (k - 1) + A.mSizeBlockCircularBuffer / 2) ∧
    (∀ i j k, 1 ≤ j → 1 ≤ k → InBlock A.mSizeBlockCircularBuffer j i → InBlock A.mSizeBlockCircularBuffer k i →
      j = k) ∧
    (∀ m, ((readTokens t calls (resetConfidence A) m).lane t).mReadPosInBlockCircularBuffer =
        ((readTokens t calls (resetConfidence A) m).mWritePosInBlockCircularBuffer + 1) % A.mSizeBlockCircularBuffer →
      ¬ TakesBlock t calls (resetConfidence A) m) ∧
    (A.mSizeBlockCircularBuffer % 2 = 1 → ∀ m,
      ((atTest t calls (resetConfidence A) m).lane t).mReadPosInBlockCircularBuffer ≠
        ((atTest t calls (resetConfidence A) m).mWritePosInBlockCircularBuffer + 1) % A.mSizeBlockCircularBuffer) := by
  have hbegins : MessageBegins t (resetConfidence A) := messageBegins_of_found hstart
  have h2 : 2 ≤ (resetConfidence A).mSizeBlockCircularBuffer := hN
  refine ⟨hbegins.read, fun k hk => ?_, fun m hm => ?_, fun i j k hj hk => InBlock.unique hj hk,
    fun m hread => hbegins.overtaken h2 hread, fun hodd m => hbegins.not_full h2 hodd calls m⟩
  · obtain ⟨m, hm⟩ : ∃ m, m + 1 = blockStart A.mSizeBlockCircularBuffer (k - 1) + A.mSizeBlockCircularBuffer / 2 :=
      ⟨_, Nat.sub_add_cancel (by omega)⟩
    obtain ⟨htakes, hcount⟩ := hbegins.block h2 calls hm
    exact ⟨m, hm, htakes, hcount, fun i hi bin hbin => hbegins.block_cells h2 calls hm hi hbin⟩
  · have hT := hbegins.tiles h2 calls m
    exact ⟨_, Nat.le_add_left 1 _, (hT.takes_iff h2).1 hm⟩

/-- The message that the chord begins, on the ring of 36 frames: whatever follows is cut into blocks of 18 frames. -/
theorem blocks_tile_chord : ∃ (As A : Analysis ℝ) (audioBuffer : ℕ → ℝ),
    As.AnalyzeStartTokens 1 audioBuffer = (1 + ((0 : ℕ) : ℤ), A) ∧ ∀ calls, ∀ k, 1 ≤ k →
      ∃ m, m + 1 = blockStart 36 (k - 1) + 36 / 2 ∧ TakesBlock 0 calls (resetConfidence A) m := by
  obtain ⟨As, B, frame, hfound, hsize⟩ := chord_found
  have hsize : (beginMessage 0 B).mSizeBlockCircularBuffer = 36 := hsize
  have hstart : As.AnalyzeStartTokens 1 frame = (1 + ((0 : ℕ) : ℤ), beginMessage 0 B) := hfound
  refine ⟨As, beginMessage 0 B, frame, hstart, fun calls k hk => ?_⟩
  obtain ⟨-, hblock, -⟩ := blocks_tile (by rw [hsize]; decide) hstart calls
  obtain ⟨m, hm, htakes, -⟩ := hblock k hk
  rw [hsize] at hm
  exact ⟨m, hm, htakes⟩

end Analysis

namespace Core

open Analysis

variable {F D : Type} [Doubles D] [Floats F D] [CFFTOoura F]

theorem step_message {c : DecoderClass} {g : Globals F} {frame : ℕ → F} {C C' : Core F} {r : Option ℤ}
    (h : step c g frame C = (r, C')) (h1 : 1 ≤ C.mDecoding) (hr : r ≠ some (-3)) :
    1 ≤ C'.mDecoding ∧ C'.mDecodingMode = C.mDecodingMode ∧ C'.analysis = (C.AnalyzeToken c g frame).2 := by
  have h18 : C.mDecoding ≤ numMessageTokens := by
    by_contra h18
    rw [step_finished c g frame (lt_of_not_ge h18)] at h
    exact hr (congrArg Prod.fst h).symm
  rcases hA : C.AnalyzeToken c g frame with ⟨ret, A⟩
  unfold step at h
  rw [if_neg (by omega), if_pos ⟨by omega, h18⟩, hA] at h
  by_cases hret : ret ≥ 0
  · obtain ⟨-, rfl⟩ := Prod.mk.inj ((if_pos hret).symm.trans h)
    refine ⟨?_, rfl, rfl⟩
    show 1 ≤ C.mDecoding + 1
    omega
  · obtain ⟨-, rfl⟩ := Prod.mk.inj ((if_neg hret).symm.trans h)
    exact ⟨h1, rfl, rfl⟩

/-- The frames of a run between the start tokens and the end of the message are calls of `AnalyzeToken`. -/
theorem run_readTokens {c : DecoderClass} (hc : c.isMultiTone = true) {C0 C : Core F} (h0 : 1 ≤ C0.mDecoding)
    {log : List (Move F × Option ℤ)} (h : Run (move c) C0 log C) (hopen : some (-3) ∉ log.map Prod.snd) :
    ∃ calls, C.analysis = readTokens (tokenLane c C0) calls C0.analysis (frameCount log) := by
  refine (h.rule (fun log C => some (-3) ∉ log.map Prod.snd → 1 ≤ C.mDecoding ∧ C.mDecodingMode = C0.mDecodingMode ∧
    ∃ calls, C.analysis = readTokens (tokenLane c C0) calls C0.analysis (frameCount log)) ?_ ?_ hopen).2.2
  · exact fun _ => ⟨h0, rfl, fun _ => ⟨initial, 0, 0, fun _ => Floats.lit 0⟩, rfl⟩
  · intro log C m r C' ih hmove hopen
    rw [List.map_append, List.mem_append, not_or] at hopen
    obtain ⟨h1, hmode, calls, hcalls⟩ := ih hopen.1
    cases m with
    | poll =>
      obtain ⟨rfl, rfl⟩ := Prod.mk.inj (Option.some.inj hmove)
      refine ⟨h1, hmode, calls, ?_⟩
      simpa [frameCount] using hcalls
    | frame g frame =>
      have hstep : step c g frame C = (r, C') := Option.some.inj hmove
      obtain ⟨h1', hmode', hA⟩ := step_message hstep h1 fun h => hopen.2 (by simp [h])
      have hlane : tokenLane c C = tokenLane c C0 := by
        unfold tokenLane
        rw [hmode]
      refine ⟨h1', hmode'.trans hmode,
        Function.update calls (frameCount log) ⟨g, tokenMode c C, C.mDecoding, frame⟩, ?_⟩
      have hcount : frameCount (log ++ [(.frame g frame, r)]) = frameCount log + 1 := by simp [frameCount]
      have hbefore : readTokens (tokenLane c C0) (Function.update calls (frameCount log)
          ⟨g, tokenMode c C, C.mDecoding, frame⟩) C0.analysis (frameCount log) = C.analysis := by
        rw [hcalls]
        apply readTokens_congr
        intro i hi
        exact Function.update_of_ne (Nat.ne_of_lt hi) ..
      rw [hA, AnalyzeToken_multiTone hc, hcount, readTokens, hbefore, Function.update_self, hlane]

end Core

end Undertone
