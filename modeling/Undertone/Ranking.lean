import Undertone.Exchange
import Undertone.Tuning

/-!
# Rankings

In exact arithmetic the analysis of a frame depends on its spectrum only through the ranking of the tones: it fixes the
tones that the search notes (`Searching.note`) and those that a block votes for (`votedTones_eq`). A sound whose
strongest tones are those of the start tokens in every frame is taken for them after 35 frames (`Searching.step`).
Everything here is for the audible decoder at 44100 Hz.
-/

namespace Undertone

open CountedLoop RingBuffer Globals

/-! ## Rankings -/

/-- The bin of tone `i` in phase `p` of the audible mode. -/
def audibleBin (p i : ℕ) : ℕ := 153 + 35 * i + 12 * p

/-- The magnitudes at a bin and its two neighbours. -/
noncomputable def around (mag : ℕ → ℝ) (bin : ℕ) : ℝ := mag (bin - 1) + mag bin + mag (bin + 1)

/-- A spectrum that ranks the tones in phase `p` by `rank p`. -/
structure Ranked (rank : ℕ → ℕ → ℕ) (mag : ℕ → ℝ) : Prop where
  pos : ∀ m, 1 ≤ m → m < 1024 → 0 < mag m
  order : ∀ p < 3, ∀ i < 9, ∀ j < 9,
    around mag (audibleBin p i) < around mag (audibleBin p j) ↔ rank p i < rank p j

theorem Ranked.congr {rank : ℕ → ℕ → ℕ} {mag mag' : ℕ → ℝ} (h : Ranked rank mag) (heq : ∀ m < 1025, mag' m = mag m) :
    Ranked rank mag' where
  pos m h1 hm := by
    rw [heq m (by omega)]
    exact h.pos m h1 hm
  order p hp i hi j hj := by
    have hbin : ∀ k < 9, around mag' (audibleBin p k) = around mag (audibleBin p k) := fun k hk => by
      unfold around audibleBin
      rw [heq _ (by omega), heq _ (by omega), heq _ (by omega)]
    rw [hbin i hi, hbin j hj]
    exact h.order p hp i hi j hj

theorem around_pos {rank : ℕ → ℕ → ℕ} {mag : ℕ → ℝ} (h : Ranked rank mag) {p i : ℕ} (hp : p < 3) (hi : i < 9) :
    0 < around mag (audibleBin p i) := by
  unfold around audibleBin
  have h1 := h.pos (153 + 35 * i + 12 * p - 1) (by omega) (by omega)
  have h2 := h.pos (153 + 35 * i + 12 * p) (by omega) (by omega)
  have h3 := h.pos (153 + 35 * i + 12 * p + 1) (by omega) (by omega)
  positivity

/-- The tones in the order of the exchange sort. -/
def sorted (rank : ℕ → ℕ) : ℕ → ℕ := (Analysis.sortTones (fun x y : ℕ => decide (x < y)) 9 rank).2

/-- The two strongest tones. -/
def strongest (rank : ℕ → ℕ) : ℕ × ℕ :=
  (maxValueIdx (fun x y : ℕ => decide (y < x)) rank 9, secondValueIdx (fun x y : ℕ => decide (y < x)) rank 9)

/-! ## Decibels -/

/-- The ratio in decibels that the decoders rank the tones by. -/
theorem decibels_lt {x y e : ℝ} (hx : 0 < x) (hy : 0 < y) (he : 0 < e) :
    20 * Real.logb 10 (x / 3 / e) < 20 * Real.logb 10 (y / 3 / e) ↔ x < y := by
  rw [mul_lt_mul_iff_right₀ (by norm_num), Real.logb_lt_logb_iff (by norm_num) (by positivity) (by positivity),
    div_lt_div_iff_of_pos_right he, div_lt_div_iff_of_pos_right (by norm_num)]

theorem sum_three (mag : ℕ → ℝ) {bin : ℕ} (hbin : 1 ≤ bin) :
    Globals.sum (fun n : ℕ => cell mag ((bin : ℤ) - (Analysis.mBinWidth : ℕ) + n)) Analysis.mSizeTokenBinAnal =
      around mag bin := by
  have h0 : ((bin : ℤ) - (1 : ℕ) + (0 : ℕ)).toNat = bin - 1 := by omega
  have h1 : ((bin : ℤ) - (1 : ℕ) + (1 : ℕ)).toNat = bin := by omega
  have h2 : ((bin : ℤ) - (1 : ℕ) + (2 : ℕ)).toNat = bin + 1 := by omega
  rw [show Analysis.mBinWidth = 1 from rfl, show Analysis.mSizeTokenBinAnal = 3 from rfl, Globals.sum,
    forUp_succ (by decide), forUp_succ (by decide), forUp_succ (by decide), forUp_self]
  simp only [cell, h0, h1, h2, lit_eq, around]
  push_cast
  ring

/-- A sum of positive terms. -/
theorem forUp_add_pos {n : ℕ} (hn : 0 < n) {f : ℕ → ℝ} (hf : ∀ i < n, 0 < f i) {s : ℝ} (hs : 0 ≤ s) :
    0 < forUp 0 n (fun i s => s + f i) s := by
  have h := forUp_rule (a := 0) (b := n) (f := fun i s => s + f i) (s := s)
    (P := fun i s => 0 ≤ s ∧ (0 < i → 0 < s)) (Nat.zero_le n) ⟨hs, fun h => absurd h (lt_irrefl 0)⟩
    (fun i s _ hi hP => by
      have := hf i hi
      exact ⟨by linarith [hP.1], fun _ => by linarith [hP.1]⟩)
  exact h.2 hn

/-! ## The audible decoder -/

/-- What the constructor of the audible decoder sets up at 44100 Hz, and nothing changes. -/
structure Settings (A : Analysis ℝ) : Prop where
  size : A.mSizeBlockCircularBuffer = 36
  tolerance : A.mnToleranceFrames = 1
  mode : A.mSpectralAnalysis.mode = .kEnergySpectrum
  fft : A.mSpectralAnalysis.mFftSize = 2048
  window : ∀ i, 1 ≤ i → i < 2048 → 0 < A.mSpectralAnalysis.mWindow i
  bins : ∀ i < 9, (A.lane 0).mFreqsBins i = audibleBin 0 i
  beginBin : (A.lane 0).mBeginBin = 153
  endBin : (A.lane 0).mEndBin = 433

/-- The first `T` frames of the ring, or all of it, hold spectra with the ranking. -/
def Cells (rank : ℕ → ℕ → ℕ) (T : ℕ) (A : Analysis ℝ) : Prop :=
  ∀ pos < 36, pos < T → Ranked rank (A.mBlockSpecMag pos)

/-- A frame whose spectrum, through any window of the kind, has the ranking. -/
def Sounds (rank : ℕ → ℕ → ℕ) (frame : ℕ → ℝ) : Prop :=
  ∀ S : SpectralAnalysis ℝ, S.mode = .kEnergySpectrum → S.mFftSize = 2048 →
    (∀ i, 1 ≤ i → i < 2048 → 0 < S.mWindow i) → Ranked rank (S.doFFT frame).mSpecMag

namespace Settings

theorem keeps {A A' : Analysis ℝ} (h : Settings A) (hk : Analysis.KeepsBlock A A') : Settings A' where
  size := hk.size.trans h.size
  tolerance := hk.tolerance.trans h.tolerance
  mode := hk.spectral ▸ h.mode
  fft := hk.spectral ▸ h.fft
  window := hk.spectral ▸ h.window
  bins := hk.bins 0 ▸ h.bins
  beginBin := (hk.beginBin 0).trans h.beginBin
  endBin := (hk.endBin 0).trans h.endBin

theorem setLane {A : Analysis ℝ} (h : Settings A) {f : Lane ℝ → Lane ℝ}
    (hbins : ∀ L, (f L).mFreqsBins = L.mFreqsBins) (hbegin : ∀ L, (f L).mBeginBin = L.mBeginBin)
    (hend : ∀ L, (f L).mEndBin = L.mEndBin) : Settings (A.setLane 0 f) := by
  have hl : (A.setLane 0 f).lane 0 = f (A.lane 0) := by simp only [Analysis.setLane, Function.update_self]
  refine ⟨h.size, h.tolerance, h.mode, h.fft, h.window, ?_, ?_, ?_⟩
  · rw [hl, hbins]
    exact h.bins
  · rw [hl, hbegin]
    exact h.beginBin
  · rw [hl, hend]
    exact h.endBin

/-- The spectrum of the frame, in the analysis and in the ring. -/
theorem store {rank : ℕ → ℕ → ℕ} {T : ℕ} {A : Analysis ℝ} (h : Settings A) (hcells : Cells rank T A)
    (hwrite : A.mWritePosInBlockCircularBuffer = T % 36) {frame : ℕ → ℝ} (hs : Sounds rank frame) :
    Settings (A.storeSpectrum frame) ∧ Ranked rank (A.storeSpectrum frame).mSpectralAnalysis.mSpecMag ∧
      Cells rank (T + 1) (A.storeSpectrum frame) := by
  have hranked := hs A.mSpectralAnalysis h.mode h.fft h.window
  refine ⟨⟨h.size, h.tolerance, h.mode, h.fft, h.window, h.bins, h.beginBin, h.endBin⟩, hranked, fun pos hpos hT => ?_⟩
  have hcell : (A.storeSpectrum frame).mBlockSpecMag = Function.update A.mBlockSpecMag (T % 36 % 36) fun i =>
      if i < (A.mSpectralAnalysis.doFFT frame).mSpecSize then (A.mSpectralAnalysis.doFFT frame).mSpecMag i
      else A.mBlockSpecMag (T % 36 % 36) i := by
    simp only [Analysis.storeSpectrum, hwrite, h.size]
  rw [hcell]
  by_cases hp : pos = T % 36 % 36
  · subst hp
    rw [Function.update_self]
    refine hranked.congr fun m hm => if_pos ?_
    simp only [SpectralAnalysis.mSpecSize, SpectralAnalysis.doFFT_mFftSize, h.fft]
    omega
  · rw [Function.update_of_ne hp]
    exact hcells pos hpos (by omega)

end Settings

/-! ## The search -/

/-- The energy mean in the alphabet frequency region of the last spectrum. -/
noncomputable def energyMean (A : Analysis ℝ) : ℝ :=
  forUp 0 ((A.lane 0).mEndBin - (A.lane 0).mBeginBin + 1).toNat (fun i energyBlock =>
    energyBlock + cell A.mSpectralAnalysis.mSpecMag ((A.lane 0).mBeginBin + i)) (Floats.lit 0) /
      ofInt ((A.lane 0).mEndBin - (A.lane 0).mBeginBin + 1)

theorem energyMean_pos {rank : ℕ → ℕ → ℕ} {A : Analysis ℝ} (h : Settings A)
    (hs : Ranked rank A.mSpectralAnalysis.mSpecMag) : 0 < energyMean A := by
  unfold energyMean
  rw [h.beginBin, h.endBin, ofInt_eq, lit_eq]
  refine div_pos (forUp_add_pos (by decide) (fun i hi => ?_) (by norm_num)) (by norm_num)
  have hi : i < 281 := hi
  exact hs.pos _ (by omega) (by omega)

theorem startRatio_eq {A : Analysis ℝ} (h : Settings A) {i : ℕ} (hi : i < 9) :
    (Analysis.ComputeStatsStartTokens 0 A).mEnergyRatios i =
      20 * Real.logb 10 (around A.mSpectralAnalysis.mSpecMag (audibleBin 0 i) / 3 / energyMean A) := by
  simp only [Analysis.ComputeStatsStartTokens]
  rw [forUp_fill 0 Analysis.mNumTones]
  refine (if_pos ⟨Nat.zero_le i, hi⟩).trans ?_
  have hsum := sum_three A.mSpectralAnalysis.mSpecMag (show 1 ≤ audibleBin 0 i by unfold audibleBin; omega)
  rw [h.bins i hi, hsum]
  show ((20 : ℚ) : ℝ) * Real.logb 10 (around _ _ / ((3 : ℚ) : ℝ) / energyMean A) = _
  norm_num

/-- The energy ratios of a frame are ranked as its spectrum is. -/
theorem startRatio_lt {rank : ℕ → ℕ → ℕ} {A : Analysis ℝ} (h : Settings A)
    (hs : Ranked rank A.mSpectralAnalysis.mSpecMag) {i : ℕ} (hi : i < 9) {j : ℕ} (hj : j < 9) :
    Floats.lt ((Analysis.ComputeStatsStartTokens 0 A).mEnergyRatios i)
      ((Analysis.ComputeStatsStartTokens 0 A).mEnergyRatios j) = decide (rank 0 i < rank 0 j) := by
  rw [startRatio_eq h hi, startRatio_eq h hj]
  refine decide_eq_decide.2 ((decibels_lt ?_ ?_ (energyMean_pos h hs)).trans (hs.order 0 (by decide) i hi j hj))
  · exact around_pos hs (by decide) hi
  · exact around_pos hs (by decide) hj

/-- `n` frames were noted since the search began at frame `T0`, each with the tones of the start tokens. -/
structure Searching (rank : ℕ → ℕ → ℕ) (T0 n : ℕ) (A : Analysis ℝ) : Prop where
  settings : Settings A
  cells : Cells rank (T0 + n) A
  write : A.mWritePosInBlockCircularBuffer = (T0 + n) % 36
  read : (A.lane 0).mReadPosInBlockCircularBuffer = T0 % 36
  first : ∀ j < n, (A.lane 0).mBlockEnergyRatiosTokenIdx ((T0 + j) % 36) = 0
  second : ∀ j < n, (A.lane 0).mBlockEnergyRatiosTokenIdx2 ((T0 + j) % 36) = 2

/-- The two strongest tones are the first tones of the two start tokens. -/
def Starts (rank : ℕ → ℕ → ℕ) : Prop := sorted (rank 0) 0 = 0 ∧ sorted (rank 0) 1 = 2

/-- What the search notes of a frame. -/
def noted (pos : ℕ) (idx : ℕ → ℕ) (L : Lane ℝ) : Lane ℝ :=
  { L with
    mBlockEnergyRatiosTokenIdx := Function.update L.mBlockEnergyRatiosTokenIdx pos (idx 0)
    mBlockEnergyRatiosTokenIdx2 := Function.update L.mBlockEnergyRatiosTokenIdx2 pos (idx 1)
    mBlockEnergyRatiosTokenIdx3 := Function.update L.mBlockEnergyRatiosTokenIdx3 pos (idx 2)
    mBlockEnergyRatiosTokenIdx4 := Function.update L.mBlockEnergyRatiosTokenIdx4 pos (idx 3) }

/-- A frame that the search notes. -/
theorem Searching.note {rank : ℕ → ℕ → ℕ} (hrank : Starts rank) {T0 n : ℕ} (hn : n < 36) {A : Analysis ℝ}
    (h : Searching rank T0 n A) {frame : ℕ → ℝ} (hs : Sounds rank frame) :
    Searching rank T0 (n + 1) (Analysis.rankTones 0 (A.storeSpectrum frame)).advanceWritePos := by
  obtain ⟨hset, hranked, hcells⟩ := h.settings.store h.cells h.write hs
  set B := A.storeSpectrum frame with hB
  have hwrite : B.mWritePosInBlockCircularBuffer = (T0 + n) % 36 := h.write
  have hrank' : Analysis.rankTones 0 B =
      (Analysis.ComputeStatsStartTokens 0 B).setLane 0 (noted ((T0 + n) % 36 % 36) (sorted (rank 0))) := by
    have hsorted : (Analysis.sortTones Floats.lt Analysis.mNumTones
        (Analysis.ComputeStatsStartTokens 0 B).mEnergyRatios).2 = sorted (rank 0) :=
      sortTones_rank fun i hi j hj => startRatio_lt hset hranked hi hj
    have hw : (Analysis.ComputeStatsStartTokens 0 B).mWritePosInBlockCircularBuffer = (T0 + n) % 36 := hwrite
    have hsize : (Analysis.ComputeStatsStartTokens 0 B).mSizeBlockCircularBuffer = 36 := hset.size
    simp only [Analysis.rankTones, hsorted, hw, hsize]
    rfl
  have hset' : Settings (Analysis.rankTones 0 B).advanceWritePos := by
    have hC : Settings (Analysis.ComputeStatsStartTokens 0 B) :=
      ⟨hset.size, hset.tolerance, hset.mode, hset.fft, hset.window, hset.bins, hset.beginBin, hset.endBin⟩
    have hR := hC.setLane (f := noted ((T0 + n) % 36 % 36) (sorted (rank 0))) (fun _ => rfl) (fun _ => rfl) fun _ => rfl
    rw [← hrank'] at hR
    exact ⟨hR.size, hR.tolerance, hR.mode, hR.fft, hR.window, hR.bins, hR.beginBin, hR.endBin⟩
  have hlane : (Analysis.rankTones 0 B).advanceWritePos.lane 0 =
      noted ((T0 + n) % 36 % 36) (sorted (rank 0)) (A.lane 0) := by
    show (Analysis.rankTones 0 B).lane 0 = _
    rw [hrank']
    simp only [Analysis.setLane, Function.update_self]
    rfl
  have hpos : ∀ j < n + 1, j ≠ n → (T0 + j) % 36 ≠ (T0 + n) % 36 % 36 := fun j hj hne => by omega
  refine ⟨hset', hcells, ?_, ?_, fun j hj => ?_, fun j hj => ?_⟩
  · show (B.mWritePosInBlockCircularBuffer + 1) % B.mSizeBlockCircularBuffer = _
    rw [hset.size, hwrite]
    omega
  · rw [hlane]
    exact h.read
  · rw [hlane, noted]
    by_cases hjn : j = n
    · subst hjn
      simp only [Nat.mod_mod, Function.update_self, hrank.1, Nat.cast_zero]
    · simp only [Function.update_of_ne (hpos j hj hjn)]
      exact h.first j (by omega)
  · rw [hlane, noted]
    by_cases hjn : j = n
    · subst hjn
      simp only [Nat.mod_mod, Function.update_self, hrank.2]
      rfl
    · simp only [Function.update_of_ne (hpos j hj hjn)]
      exact h.second j (by omega)

theorem Searching.filled {rank : ℕ → ℕ → ℕ} {T0 n : ℕ} (hn : n < 36) {A : Analysis ℝ} (h : Searching rank T0 n A) :
    A.getSizeFilledBlockCircularBuffer 0 = n := by
  rw [Analysis.getSizeFilledBlockCircularBuffer, h.settings.size, h.read, h.write, filled_mod (by omega) (by omega)]
  omega

/-- After 35 frames the window holds both start tokens. -/
theorem Searching.found {rank : ℕ → ℕ → ℕ} {T0 : ℕ} {A : Analysis ℝ} (h : Searching rank T0 35 A) :
    Analysis.startFound 0 A = true := by
  have hpos : ∀ i, A.blockPos 0 i = (T0 + i) % 36 := fun i => by
    rw [Analysis.blockPos, h.settings.size, h.read]
    omega
  have hfirst : A.firstTokenRepetitions 0 = 18 := by
    rw [Analysis.firstTokenRepetitions, h.settings.size, forUp_count (Nat.zero_le _), Finset.filter_true_of_mem]
    · rfl
    · intro i hi
      have hi : i < 18 := (Finset.mem_Ico.1 hi).2
      rw [hpos]
      exact h.first i (by omega)
  have hsecond : 17 ≤ A.secondTokenRepetitions 0 := by
    rw [Analysis.secondTokenRepetitions, h.settings.size, forUp_count (by decide)]
    have hsub : Finset.Ico 18 35 ⊆ (Finset.Ico (36 / 2) 36).filter fun i =>
        (A.lane 0).mBlockEnergyRatiosTokenIdx (A.blockPos 0 i) = Analysis.idxTonesFrontDoorToken2.1 ∨
          (A.lane 0).mBlockEnergyRatiosTokenIdx2 (A.blockPos 0 i) = Analysis.idxTonesFrontDoorToken2.1 := by
      intro i hi
      have hi := Finset.mem_Ico.1 hi
      refine Finset.mem_filter.2 ⟨Finset.mem_Ico.2 (by omega), Or.inr ?_⟩
      rw [hpos]
      exact h.second i (by omega)
    exact_mod_cast Finset.card_le_card hsub
  unfold Analysis.startFound
  rw [hfirst, h.settings.size, h.settings.tolerance]
  rw [if_pos (by decide)]
  refine decide_eq_true ?_
  omega

/-- One frame of the search: nothing is found before frame 35, and then the message begins. -/
theorem Searching.step {rank : ℕ → ℕ → ℕ} (hrank : Starts rank) {T0 n : ℕ} (hn : n < 35) {A : Analysis ℝ}
    (h : Searching rank T0 n A) {frame : ℕ → ℝ} (hs : Sounds rank frame) :
    ∃ B, Searching rank T0 (n + 1) B ∧ A.AnalyzeStartTokens 1 frame =
      if n + 1 = 35 then (1, Analysis.beginMessage 0 B) else (0, B) := by
  have hnote := h.note hrank (by omega) hs
  refine ⟨_, hnote, ?_⟩
  have hfilled := hnote.filled (by omega)
  have hmode : Analysis.searchMode 0 (A.storeSpectrum frame) =
      Analysis.searchLoop Analysis.startFound 0 36 (Analysis.rankTones 0 (A.storeSpectrum frame)).advanceWritePos := by
    simp only [Analysis.searchMode, if_true]
    rw [hnote.settings.size]
  have hloop : Analysis.searchMode 0 (A.storeSpectrum frame) =
      if n + 1 = 35 then (true, Analysis.beginMessage 0 (Analysis.rankTones 0 (A.storeSpectrum frame)).advanceWritePos)
      else (false, (Analysis.rankTones 0 (A.storeSpectrum frame)).advanceWritePos) := by
    rw [hmode, Analysis.searchLoop, hfilled, hnote.settings.size]
    by_cases h35 : n + 1 = 35
    · obtain rfl : n = 34 := by omega
      rw [if_pos (by decide), if_pos hnote.found, if_pos rfl]
    · rw [if_neg (by omega), if_neg h35]
  unfold Analysis.AnalyzeStartTokens
  rw [Analysis.searchModes, hloop]
  by_cases h35 : n + 1 = 35
  · simp only [if_pos h35, if_true]
    norm_num
  · simp only [if_neg h35]
    rfl

/-! ## The votes -/

theorem energyBlock_pos {rank : ℕ → ℕ → ℕ} {A : Analysis ℝ} (h : Settings A) (hcells : Cells rank 36 A) :
    (0 : ℝ) < A.energyBlock 0 := by
  have hcell : ∀ k, ∀ i : ℕ, i < 281 → 0 < cell (A.mBlockSpecMag (A.blockPos 0 k)) (153 + i) := fun k i hi => by
    have hpos : A.blockPos 0 k < 36 := by
      rw [Analysis.blockPos, h.size]
      exact Nat.mod_lt _ (by decide)
    exact (hcells _ hpos hpos).pos _ (by omega) (by omega)
  simp only [Analysis.energyBlock, h.size, h.beginBin, h.endBin]
  refine div_pos ?_ (mul_pos ?_ ?_)
  · have hsum := forUp_rule (a := 0) (b := 36 / 2) (s := (Doubles.lit 0 : ℝ))
      (f := fun k e => forUp 0 (433 - 153 + 1 : ℤ).toNat (fun i e =>
        e + Floats.toDouble (cell (A.mBlockSpecMag (A.blockPos 0 k)) (153 + i))) e)
      (P := fun k e => 0 ≤ e ∧ (0 < k → 0 < e)) (Nat.zero_le _)
      ⟨le_of_eq (Rat.cast_zero (α := ℝ)).symm, fun h => absurd h (lt_irrefl 0)⟩
      (fun k e _ _ hP => by
        have hlt := forUp_add_pos (n := 281) (by decide) (fun i hi => hcell k i hi) hP.1
        exact ⟨hlt.le, fun _ => hlt⟩)
    exact hsum.2 (by decide)
  · show (0 : ℝ) < ((433 - 153 + 1 : ℤ) : ℚ)
    norm_num
  · show (0 : ℝ) < ((36 / 2 : ℕ) : ℚ)
    norm_num

theorem toneRatio_eq {A : Analysis ℝ} (h : Settings A) {g : Globals ℝ}
    (hg : g.nBinsOffsetForAudibleMultiTone = 12) (n k : ℕ) {i : ℕ} (hi : i < 9) :
    Analysis.toneRatio g DECODING_MODE_AUDIBLE n A 0 k i = 20 * Real.logb 10
      (around (A.mBlockSpecMag (A.blockPos 0 k)) (audibleBin (n % 3) i) / 3 / A.energyBlock 0) := by
  have hoffset : Analysis.nBinsOffset g DECODING_MODE_AUDIBLE = 12 := hg
  have hbin : Analysis.evalToneBin g DECODING_MODE_AUDIBLE n (A.lane 0) i = (audibleBin (n % 3) i : ℕ) := by
    rw [Analysis.evalToneBin_phase, h.bins i hi, hoffset]
    unfold audibleBin
    push_cast
    ring
  have hsum := sum_three (A.mBlockSpecMag (A.blockPos 0 k)) (show 1 ≤ audibleBin (n % 3) i by unfold audibleBin; omega)
  simp only [Analysis.toneRatio, Analysis.toneSum, hbin, hsum]
  show ((20 : ℚ) : ℝ) * Real.logb 10 (around _ _ / ((3 : ℚ) : ℝ) / A.energyBlock 0) = _
  norm_num

theorem strongestTones_eq {rank : ℕ → ℕ → ℕ} {A : Analysis ℝ} (h : Settings A) (hcells : Cells rank 36 A)
    {g : Globals ℝ} (hg : g.nBinsOffsetForAudibleMultiTone = 12) (n k : ℕ) :
    Analysis.strongestTones g DECODING_MODE_AUDIBLE n A 0 k = strongest (rank (n % 3)) := by
  have hpos : A.blockPos 0 k < 36 := by
    rw [Analysis.blockPos, h.size]
    exact Nat.mod_lt _ (by decide)
  have hranked := hcells _ hpos hpos
  have hphase := Nat.mod_lt n (show 0 < 3 by decide)
  have hcmp : ∀ i < 9, ∀ j < 9, floatGt (Analysis.toneRatio g DECODING_MODE_AUDIBLE n A 0 k i)
      (Analysis.toneRatio g DECODING_MODE_AUDIBLE n A 0 k j) = decide (rank (n % 3) j < rank (n % 3) i) := by
    intro i hi j hj
    rw [toneRatio_eq h hg n k hi, toneRatio_eq h hg n k hj]
    exact decide_eq_decide.2 ((decibels_lt (around_pos hranked hphase hj) (around_pos hranked hphase hi)
      (energyBlock_pos h hcells)).trans (hranked.order _ hphase j hj i hi))
  rw [strongest, ← maxValueIdx_rank (show 0 < 9 by decide) hcmp, ← secondValueIdx_rank (show 2 ≤ 9 by decide) hcmp]
  rfl

/-- The tones that a block votes for when all its frames have the strongest tones `t`. -/
def elected (t : ℕ × ℕ) : ℕ × ℕ :=
  (maxValueIdx intGt (fun i => 18 * ((if t.1 = i then 1 else 0) + if t.2 = i then 1 else 0)) 9,
    secondValueIdx intGt (fun i => 18 * ((if t.1 = i then 1 else 0) + if t.2 = i then 1 else 0)) 9)

theorem votedTones_eq {rank : ℕ → ℕ → ℕ} {A : Analysis ℝ} (h : Settings A) (hcells : Cells rank 36 A)
    {g : Globals ℝ} (hg : g.nBinsOffsetForAudibleMultiTone = 12) (n : ℕ) :
    Analysis.votedTones g DECODING_MODE_AUDIBLE n A 0 = elected (strongest (rank (n % 3))) := by
  have hvotes : Analysis.votes g DECODING_MODE_AUDIBLE n A 0 (A.mSizeBlockCircularBuffer / 2) =
      fun i => 18 * ((if (strongest (rank (n % 3))).1 = i then 1 else 0) +
        if (strongest (rank (n % 3))).2 = i then 1 else 0) := by
    funext i
    simp only [Analysis.votes, strongestTones_eq h hcells hg, Finset.sum_const, Finset.card_range, h.size, nsmul_eq_mul]
    rfl
  rw [Analysis.votedTones, hvotes]
  rfl

end Undertone
