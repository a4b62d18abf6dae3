import Mathlib.Algebra.BigOperators.Group.Finset.Basic
import Undertone.Decoder.MultiTone

/-!
# The vote of a block

What `AnalyzeToken` of the multi-tone decoders returns, as a function of the spectra in the block ring: every frame of
the block votes for its two strongest tones, and the token is that of the two tones with the most votes
(`decodeBlock_value`). The rest of its work, the statistics, leaves the ring and its positions alone (`KeepsBlock`).
-/

namespace Undertone

open CountedLoop RingBuffer Globals

namespace Analysis

variable {F D : Type} [Doubles D] [Floats F D]

/-! ## The vote -/

/-- The ratio of the energy of tone `i` in frame `k` of the block to the energy mean of the block. -/
def toneRatio (g : Globals F) (mode mDecoding : ℤ) (A : Analysis F) (t k i : ℕ) : F :=
  Floats.ofDouble (Doubles.lit 20 * Doubles.log10
    ((toneSum g mode mDecoding A t k i : D) / Doubles.lit mSizeTokenBinAnal / A.energyBlock t))

/-- The two strongest tones of frame `k` of the block. -/
def strongestTones (g : Globals F) (mode mDecoding : ℤ) (A : Analysis F) (t k : ℕ) : ℕ × ℕ :=
  (maxValueIdx floatGt (toneRatio g mode mDecoding A t k) mNumTones,
    secondValueIdx floatGt (toneRatio g mode mDecoding A t k) mNumTones)

/-- The votes for each tone of the first `n` frames of the block. -/
def votes (g : Globals F) (mode mDecoding : ℤ) (A : Analysis F) (t n i : ℕ) : ℤ :=
  ∑ k ∈ Finset.range n, ((if (strongestTones g mode mDecoding A t k).1 = i then 1 else 0) +
    if (strongestTones g mode mDecoding A t k).2 = i then 1 else 0)

/-- The two tones with the most votes. -/
def votedTones (g : Globals F) (mode mDecoding : ℤ) (A : Analysis F) (t : ℕ) : ℕ × ℕ :=
  (maxValueIdx intGt (votes g mode mDecoding A t (A.mSizeBlockCircularBuffer / 2)) mNumTones,
    secondValueIdx intGt (votes g mode mDecoding A t (A.mSizeBlockCircularBuffer / 2)) mNumTones)

/-! ## What the statistics leave alone -/

structure KeepsBlock (A A' : Analysis F) : Prop where
  spectral : A'.mSpectralAnalysis = A.mSpectralAnalysis
  mag : A'.mBlockSpecMag = A.mBlockSpecMag
  write : A'.mWritePosInBlockCircularBuffer = A.mWritePosInBlockCircularBuffer
  size : A'.mSizeBlockCircularBuffer = A.mSizeBlockCircularBuffer
  tolerance : A'.mnToleranceFrames = A.mnToleranceFrames
  start : A'.mEndStartTokenPosInBlockCircularBuffer = A.mEndStartTokenPosInBlockCircularBuffer
  acc : A'.mAccumulatedDecodingFrames = A.mAccumulatedDecodingFrames
  read : ∀ t, (A'.lane t).mReadPosInBlockCircularBuffer = (A.lane t).mReadPosInBlockCircularBuffer
  bins : ∀ t, (A'.lane t).mFreqsBins = (A.lane t).mFreqsBins
  beginBin : ∀ t, (A'.lane t).mBeginBin = (A.lane t).mBeginBin
  endBin : ∀ t, (A'.lane t).mEndBin = (A.lane t).mEndBin

theorem KeepsBlock.rfl' {A : Analysis F} : KeepsBlock A A :=
  ⟨rfl, rfl, rfl, rfl, rfl, rfl, rfl, fun _ => rfl, fun _ => rfl, fun _ => rfl, fun _ => rfl⟩

theorem KeepsBlock.trans {A A' A'' : Analysis F} (h : KeepsBlock A A') (h' : KeepsBlock A' A'') : KeepsBlock A A'' where
  spectral := h'.spectral.trans h.spectral
  mag := h'.mag.trans h.mag
  write := h'.write.trans h.write
  size := h'.size.trans h.size
  tolerance := h'.tolerance.trans h.tolerance
  start := h'.start.trans h.start
  acc := h'.acc.trans h.acc
  read t := (h'.read t).trans (h.read t)
  bins t := (h'.bins t).trans (h.bins t)
  beginBin t := (h'.beginBin t).trans (h.beginBin t)
  endBin t := (h'.endBin t).trans (h.endBin t)

theorem KeepsBlock.blockPos {A A' : Analysis F} (h : KeepsBlock A A') (t k : ℕ) : A'.blockPos t k = A.blockPos t k := by
  rw [Analysis.blockPos, Analysis.blockPos, h.read, h.size]

theorem KeepsBlock.energyBlock {A A' : Analysis F} (h : KeepsBlock A A') (t : ℕ) :
    (A'.energyBlock t : D) = A.energyBlock t := by
  unfold Analysis.energyBlock
  simp only [h.size, h.beginBin, h.endBin, h.mag, h.blockPos]

omit [Doubles D] in
theorem KeepsBlock.toneSum {A A' : Analysis F} (h : KeepsBlock A A') (g : Globals F) (mode mDecoding : ℤ) (t k i : ℕ) :
    (Analysis.toneSum g mode mDecoding A' t k i : D) = Analysis.toneSum g mode mDecoding A t k i := by
  unfold Analysis.toneSum evalToneBin
  simp only [h.bins, h.mag, h.blockPos]

omit [Doubles D] [Floats F D] in
theorem blockPos_ne {A : Analysis F} {t i j : ℕ} (hij : i ≠ j) (hi : i < A.mSizeBlockCircularBuffer)
    (hj : j < A.mSizeBlockCircularBuffer) : A.blockPos t i ≠ A.blockPos t j := by
  rcases Nat.lt_or_gt_of_ne hij with hlt | hgt
  · exact mod_ne (a := (A.lane t).mReadPosInBlockCircularBuffer) (Nat.le_add_right _ _) (by omega) (by omega)
  · exact (mod_ne (a := (A.lane t).mReadPosInBlockCircularBuffer) (Nat.le_add_right _ _) (by omega) (by omega)).symm

theorem setLane_keeps {A : Analysis F} {t : ℕ} {f : Lane F → Lane F}
    (hread : ∀ L, (f L).mReadPosInBlockCircularBuffer = L.mReadPosInBlockCircularBuffer)
    (hbins : ∀ L, (f L).mFreqsBins = L.mFreqsBins) (hbegin : ∀ L, (f L).mBeginBin = L.mBeginBin)
    (hend : ∀ L, (f L).mEndBin = L.mEndBin) : KeepsBlock A (A.setLane t f) := by
  have hl : ∀ s, (A.setLane t f).lane s = if s = t then f (A.lane t) else A.lane s := fun s => by
    simp only [setLane, Function.update_apply]
  refine ⟨rfl, rfl, rfl, rfl, rfl, rfl, rfl, fun s => ?_, fun s => ?_, fun s => ?_, fun s => ?_⟩ <;> rw [hl] <;> split
  · rename_i h
    rw [h, hread]
  · rfl
  · rename_i h
    rw [h, hbins]
  · rfl
  · rename_i h
    rw [h, hbegin]
  · rfl
  · rename_i h
    rw [h, hend]
  · rfl

omit [Doubles D] in
theorem noteTones_keeps (t k : ℕ) (A : Analysis F) : KeepsBlock A (noteTones t k A) := by
  have h : KeepsBlock A (A.setLane t fun L => { L with
      mBlockTokenStatistics := Function.update L.mBlockTokenStatistics (A.blockPos t k)
        { (A.lane t).mBlockTokenStatistics (A.blockPos t k) with
          idxToneMax := maxValueIdx floatGt A.mEnergyRatios mNumTones
          idxToneSecond := secondValueIdx floatGt A.mEnergyRatios mNumTones
          energyRatioToneMax := A.mEnergyRatios (maxValueIdx floatGt A.mEnergyRatios mNumTones)
          energyRatioToneSecond := A.mEnergyRatios (secondValueIdx floatGt A.mEnergyRatios mNumTones)
          energyToken := A.mEnergy (maxValueIdx floatGt A.mEnergyRatios mNumTones) +
            A.mEnergy (secondValueIdx floatGt A.mEnergyRatios mNumTones) } }) :=
    setLane_keeps (fun _ => rfl) (fun _ => rfl) (fun _ => rfl) (fun _ => rfl)
  exact ⟨h.spectral, h.mag, h.write, h.size, h.tolerance, h.start, h.acc, h.read, h.bins, h.beginBin, h.endBin⟩

theorem frameStats_keeps (g : Globals F) (mode mDecoding : ℤ) (energyBlock : D) (t k : ℕ) (A : Analysis F) :
    KeepsBlock A (frameStats g mode mDecoding energyBlock t k A) :=
  ⟨rfl, rfl, rfl, rfl, rfl, rfl, rfl, fun _ => rfl, fun _ => rfl, fun _ => rfl, fun _ => rfl⟩

omit [Doubles D] in
theorem noteTokens_keeps (mode : ℤ) (t : ℕ) (A : Analysis F) : KeepsBlock A (noteTokens mode t A) := by
  refine forUp_rule (P := fun _ A' => KeepsBlock A A') (Nat.zero_le _) .rfl' ?_
  intro i A' _ _ h
  exact h.trans (setLane_keeps (fun _ => rfl) (fun _ => rfl) (fun _ => rfl) (fun _ => rfl))

/-! ## The statistics -/

theorem frameStats_ratios (g : Globals F) (mode mDecoding : ℤ) (energyBlock : D) (t k : ℕ) (A : Analysis F) {i : ℕ}
    (hi : i < mNumTones) : (frameStats g mode mDecoding energyBlock t k A).mEnergyRatios i =
      Floats.ofDouble (Doubles.lit 20 * Doubles.log10
        ((toneSum g mode mDecoding A t k i : D) / Doubles.lit mSizeTokenBinAnal / energyBlock)) := by
  refine forUp_rule (P := fun n (st : (ℕ → F) × (ℕ → F)) => ∀ i < n, st.2 i =
    Floats.ofDouble (Doubles.lit 20 * Doubles.log10
      ((toneSum g mode mDecoding A t k i : D) / Doubles.lit mSizeTokenBinAnal / energyBlock)))
    (Nat.zero_le mNumTones) (fun i hi => absurd hi (Nat.not_lt_zero i)) ?_ i hi
  rintro n ⟨e, r⟩ - - h i hi
  by_cases hin : i = n
  · subst hin
    exact Function.update_self ..
  · exact (Function.update_of_ne hin ..).trans (h i (by omega))

/-- The two strongest tones that a round of `ComputeStats` finds. -/
theorem frameStats_strongest (g : Globals F) (mode mDecoding : ℤ) (t k : ℕ) {A A' : Analysis F} (h : KeepsBlock A A') :
    (∀ i < mNumTones, (frameStats g mode mDecoding (A.energyBlock t) t k A').mEnergyRatios i =
        toneRatio g mode mDecoding A t k i) ∧
      maxValueIdx floatGt (frameStats g mode mDecoding (A.energyBlock t) t k A').mEnergyRatios mNumTones =
        (strongestTones g mode mDecoding A t k).1 ∧
      secondValueIdx floatGt (frameStats g mode mDecoding (A.energyBlock t) t k A').mEnergyRatios mNumTones =
        (strongestTones g mode mDecoding A t k).2 := by
  have hratio : ∀ i < mNumTones, (frameStats g mode mDecoding (A.energyBlock t) t k A').mEnergyRatios i =
      toneRatio g mode mDecoding A t k i := fun i hi => by
    rw [frameStats_ratios _ _ _ _ _ _ _ hi, toneRatio, h.toneSum]
  have hcmp : ∀ i < mNumTones, ∀ j < mNumTones,
      floatGt ((frameStats g mode mDecoding (A.energyBlock t) t k A').mEnergyRatios i)
          ((frameStats g mode mDecoding (A.energyBlock t) t k A').mEnergyRatios j) =
        floatGt (toneRatio g mode mDecoding A t k i) (toneRatio g mode mDecoding A t k j) := fun i hi j hj => by
    rw [hratio i hi, hratio j hj]
  exact ⟨hratio, maxValueIdx_rank (show 0 < mNumTones by decide) hcmp,
    secondValueIdx_rank (show 2 ≤ mNumTones by decide) hcmp⟩

/-- The tones noted for the frames of the block. -/
theorem ComputeStats_spec (g : Globals F) (mode mDecoding : ℤ) (t : ℕ) (A : Analysis F) :
    KeepsBlock A (ComputeStats g mode mDecoding t A) ∧ ∀ k < A.mSizeBlockCircularBuffer / 2,
      (ComputeStats g mode mDecoding t A).mBlockEnergyRatiosMaxToneIdx (A.blockPos t k) =
        (strongestTones g mode mDecoding A t k).1 ∧
      (ComputeStats g mode mDecoding t A).mBlockEnergyRatiosSecondToneIdx (A.blockPos t k) =
        (strongestTones g mode mDecoding A t k).2 := by
  refine forUp_rule (P := fun n A' => KeepsBlock A A' ∧ ∀ k < n,
    A'.mBlockEnergyRatiosMaxToneIdx (A.blockPos t k) = (strongestTones g mode mDecoding A t k).1 ∧
      A'.mBlockEnergyRatiosSecondToneIdx (A.blockPos t k) = (strongestTones g mode mDecoding A t k).2)
    (Nat.zero_le _) ⟨.rfl', fun k hk => absurd hk (Nat.not_lt_zero k)⟩ ?_
  rintro n A' - hn ⟨hkeep, h⟩
  obtain ⟨-, hmax, hsecond⟩ := frameStats_strongest g mode mDecoding t n hkeep
  have hkeep1 : KeepsBlock A (frameStats g mode mDecoding (A.energyBlock t) t n A') :=
    hkeep.trans (frameStats_keeps ..)
  refine ⟨hkeep1.trans (noteTones_keeps t n _), fun k hk => ?_⟩
  by_cases hkn : k = n
  · subst hkn
    simp only [noteTones, hkeep1.blockPos, Function.update_self]
    exact ⟨congrArg _ hmax, congrArg _ hsecond⟩
  · have hne : A.blockPos t k ≠ A.blockPos t n := blockPos_ne hkn (by omega) (by omega)
    simp only [noteTones, hkeep1.blockPos, Function.update_of_ne hne]
    exact h k (by omega)

theorem two_votes (reps : ℕ → ℤ) (a b i : ℕ) :
    Function.update (Function.update reps a (reps a + 1)) b (Function.update reps a (reps a + 1) b + 1) i =
      reps i + ((if a = i then 1 else 0) + if b = i then 1 else 0) := by
  by_cases hb : b = i
  · subst hb
    by_cases ha : a = b
    · subst ha
      simp [add_assoc]
    · simp [ha, Function.update_of_ne (Ne.symm ha)]
  · rw [Function.update_of_ne (Ne.symm hb)]
    by_cases ha : a = i
    · subst ha
      simp [hb]
    · simp [ha, hb, Function.update_of_ne (Ne.symm ha)]

theorem mToneRepetitions_spec (g : Globals F) (mode mDecoding : ℤ) (t : ℕ) (A : Analysis F) (i : ℕ) :
    mToneRepetitions t (ComputeStats g mode mDecoding t A) i =
      votes g mode mDecoding A t (A.mSizeBlockCircularBuffer / 2) i := by
  obtain ⟨hkeep, hs⟩ := ComputeStats_spec g mode mDecoding t A
  unfold mToneRepetitions
  rw [hkeep.size]
  refine forUp_rule (P := fun n (reps : ℕ → ℤ) => ∀ i, reps i = votes g mode mDecoding A t n i) (Nat.zero_le _)
    (fun i => by simp [votes]) ?_ i
  intro n reps _ hn h i
  obtain ⟨h1, h2⟩ := hs n hn
  rw [hkeep.blockPos, h1, h2, Int.toNat_natCast, Int.toNat_natCast, two_votes, h, votes, votes, Finset.sum_range_succ]

/-- The value of a block is the token of the two tones with the most votes. -/
theorem decodeBlock_value (g : Globals F) (mode mDecoding : ℤ) (t : ℕ) (A : Analysis F) :
    (decodeBlock g mode mDecoding t A).1 =
      idxToken mode (votedTones g mode mDecoding A t).1 (votedTones g mode mDecoding A t).2 := by
  have h : mToneRepetitions t (ComputeStats g mode mDecoding t A) =
      votes g mode mDecoding A t (A.mSizeBlockCircularBuffer / 2) :=
    funext (mToneRepetitions_spec g mode mDecoding t A)
  simp only [decodeBlock, votedTones, h]

/-! ## The confidence -/

/-- The energy of tone `i` in frame `k` of the block. -/
def toneEnergy (g : Globals F) (mode mDecoding : ℤ) (A : Analysis F) (t k i : ℕ) : F :=
  Floats.ofDouble ((toneSum g mode mDecoding A t k i : D) * Doubles.lit A.mSpectralAnalysis.mSpecSize /
    Floats.toDouble (ofInt (A.mSizeBlockCircularBuffer / 2 : ℕ) : F))

/-- What is noted of frame `k` of the block. -/
structure FrameNoted (g : Globals F) (mode mDecoding : ℤ) (A : Analysis F) (t k : ℕ) (p : sTokenProbs F) : Prop where
  toneMax : p.idxToneMax = (strongestTones g mode mDecoding A t k).1
  toneSecond : p.idxToneSecond = (strongestTones g mode mDecoding A t k).2
  ratioMax : p.energyRatioToneMax = toneRatio g mode mDecoding A t k (strongestTones g mode mDecoding A t k).1
  ratioSecond : p.energyRatioToneSecond = toneRatio g mode mDecoding A t k (strongestTones g mode mDecoding A t k).2
  energy : p.energyToken = toneEnergy g mode mDecoding A t k (strongestTones g mode mDecoding A t k).1 +
    toneEnergy g mode mDecoding A t k (strongestTones g mode mDecoding A t k).2

/-- The sums of the energy ratios and the energies of the frames of the block whose token is `max`. -/
def blockConfidence (g : Globals F) (mode mDecoding : ℤ) (A : Analysis F) (t : ℕ) (max : ℤ) : F × F :=
  forUp 0 (A.mSizeBlockCircularBuffer / 2) (fun k (prob, energy) =>
    let (tone1, tone2) := strongestTones g mode mDecoding A t k
    if idxToken mode tone1 tone2 = max then
      (prob + (toneRatio g mode mDecoding A t k tone1 + toneRatio g mode mDecoding A t k tone2) / Floats.lit 2,
        energy + (toneEnergy g mode mDecoding A t k tone1 + toneEnergy g mode mDecoding A t k tone2))
    else (prob, energy)) (Floats.lit 0, Floats.lit 0)

theorem frameStats_energies (g : Globals F) (mode mDecoding : ℤ) (t k : ℕ) {A A' : Analysis F} (h : KeepsBlock A A')
    {i : ℕ} (hi : i < mNumTones) :
    (frameStats g mode mDecoding (A.energyBlock t) t k A').mEnergy i = toneEnergy g mode mDecoding A t k i := by
  have henergy : ∀ i, (Floats.ofDouble ((toneSum g mode mDecoding A' t k i : D) *
      Doubles.lit A'.mSpectralAnalysis.mSpecSize / Floats.toDouble
        (ofInt (A'.mSizeBlockCircularBuffer / 2 : ℕ) : F)) : F) =
        toneEnergy g mode mDecoding A t k i := fun i => by
    rw [toneEnergy, h.toneSum, h.spectral, h.size]
  refine forUp_rule (P := fun n (st : (ℕ → F) × (ℕ → F)) => ∀ i < n, st.1 i = toneEnergy g mode mDecoding A t k i)
    (Nat.zero_le mNumTones) (fun i hi => absurd hi (Nat.not_lt_zero i)) ?_ i hi
  rintro n ⟨e, r⟩ - - hn i hi
  by_cases hin : i = n
  · subst hin
    exact (Function.update_self ..).trans (henergy i)
  · exact (Function.update_of_ne hin ..).trans (hn i (by omega))

/-- The statistics of the frames of the block. -/
theorem ComputeStats_noted (g : Globals F) (mode mDecoding : ℤ) (t : ℕ) (A : Analysis F) {k : ℕ}
    (hk : k < A.mSizeBlockCircularBuffer / 2) : FrameNoted g mode mDecoding A t k
      (((ComputeStats g mode mDecoding t A).lane t).mBlockTokenStatistics (A.blockPos t k)) := by
  refine (forUp_rule (P := fun n A' => KeepsBlock A A' ∧ ∀ k < n,
    FrameNoted g mode mDecoding A t k ((A'.lane t).mBlockTokenStatistics (A.blockPos t k)))
    (Nat.zero_le _) ⟨.rfl', fun k hk => absurd hk (Nat.not_lt_zero k)⟩ ?_).2 k hk
  rintro n A' - hn ⟨hkeep, h⟩
  obtain ⟨hratio, hmax, hsecond⟩ := frameStats_strongest g mode mDecoding t n hkeep
  have hkeep1 : KeepsBlock A (frameStats g mode mDecoding (A.energyBlock t) t n A') :=
    hkeep.trans (frameStats_keeps ..)
  have hltMax := maxValueIdx_lt floatGt (toneRatio g mode mDecoding A t n) (show 0 < mNumTones by decide)
  have hltSecond := (secondValueIdx_spec floatGt (toneRatio g mode mDecoding A t n) (show 2 ≤ mNumTones by decide)).1
  refine ⟨hkeep1.trans (noteTones_keeps t n _), fun k hk => ?_⟩
  by_cases hkn : k = n
  · subst hkn
    simp only [noteTones, setLane, hkeep1.blockPos, Function.update_self, hmax, hsecond]
    exact ⟨rfl, rfl, hratio _ hltMax, hratio _ hltSecond, congrArg₂ _ (frameStats_energies _ _ _ _ _ hkeep hltMax)
      (frameStats_energies _ _ _ _ _ hkeep hltSecond)⟩
  · have hne : A.blockPos t k ≠ A.blockPos t n := blockPos_ne hkn (by omega) (by omega)
    simp only [noteTones, setLane, hkeep1.blockPos, Function.update_self, Function.update_of_ne hne]
    exact h k (by omega)

/-- The statistics of a frame with its token. -/
def withToken (mode : ℤ) (p : sTokenProbs F) : sTokenProbs F :=
  { p with
    idxToken := idxToken mode p.idxToneMax p.idxToneSecond
    energyRatioToken := (p.energyRatioToneMax + p.energyRatioToneSecond) / Floats.lit 2 }

omit [Doubles D] in
/-- The loop that notes the tokens completes the statistics of every frame of the block. -/
theorem noteTokens_noted (mode : ℤ) (t : ℕ) (A : Analysis F) {k : ℕ} (hk : k < A.mSizeBlockCircularBuffer / 2) :
    ((noteTokens mode t A).lane t).mBlockTokenStatistics (A.blockPos t k) =
      withToken mode ((A.lane t).mBlockTokenStatistics (A.blockPos t k)) := by
  have hloop := forUp_rule (a := 0) (b := A.mSizeBlockCircularBuffer / 2) (s := A) (f := fun i A' =>
    A'.setLane t fun L => { L with
      mBlockTokenStatistics := Function.update L.mBlockTokenStatistics (A'.blockPos t i)
        (withToken mode (L.mBlockTokenStatistics (A'.blockPos t i))) })
    (P := fun n A' => KeepsBlock A A' ∧ ∀ k < A.mSizeBlockCircularBuffer / 2,
      (A'.lane t).mBlockTokenStatistics (A.blockPos t k) =
        if k < n then withToken mode ((A.lane t).mBlockTokenStatistics (A.blockPos t k))
        else (A.lane t).mBlockTokenStatistics (A.blockPos t k)) (Nat.zero_le _) ⟨.rfl', fun _ _ => rfl⟩ ?_
  · exact (hloop.2 k hk).trans (if_pos hk)
  · rintro n A' - hn ⟨hkeep, h⟩
    refine ⟨hkeep.trans (setLane_keeps (fun _ => rfl) (fun _ => rfl) (fun _ => rfl) (fun _ => rfl)), fun k hk => ?_⟩
    simp only [setLane, Function.update_self, hkeep.blockPos]
    by_cases hkn : k = n
    · subst hkn
      rw [Function.update_self, h k hk, if_neg (lt_irrefl k), if_pos (Nat.lt_succ_self k)]
    · have hne : A.blockPos t k ≠ A.blockPos t n := blockPos_ne hkn (by omega) (by omega)
      have hiff : k < n + 1 ↔ k < n := by omega
      rw [Function.update_of_ne hne, h k hk]
      simp only [hiff]

/-- The statistics leave the sums over the blocks alone. -/
theorem stats_sums (g : Globals F) (mode mDecoding : ℤ) (t : ℕ) (A : Analysis F) :
    (noteTokens mode t (ComputeStats g mode mDecoding t A)).mConfidenceEnergyRatios = A.mConfidenceEnergyRatios ∧
      (noteTokens mode t (ComputeStats g mode mDecoding t A)).mReceivedOxysVolume = A.mReceivedOxysVolume := by
  have hstats := forUp_rule (a := 0) (b := A.mSizeBlockCircularBuffer / 2) (s := A) (f := fun k A' =>
    noteTones t k (frameStats g mode mDecoding (A.energyBlock t) t k A'))
    (P := fun _ A' => A'.mConfidenceEnergyRatios = A.mConfidenceEnergyRatios ∧
      A'.mReceivedOxysVolume = A.mReceivedOxysVolume) (Nat.zero_le _) ⟨rfl, rfl⟩ fun _ _ _ _ h => h
  exact forUp_rule (P := fun _ (A' : Analysis F) => A'.mConfidenceEnergyRatios = A.mConfidenceEnergyRatios ∧
    A'.mReceivedOxysVolume = A.mReceivedOxysVolume) (Nat.zero_le _) hstats fun _ _ _ _ h => h

/-- What a block adds to the confidence and to the volume. -/
theorem decodeBlock_sums (g : Globals F) (mode mDecoding : ℤ) (t : ℕ) (A : Analysis F) :
    let sums := blockConfidence g mode mDecoding A t (decodeBlock g mode mDecoding t A).1
    let half : F := ofInt (A.mSizeBlockCircularBuffer / 2 : ℕ)
    (decodeBlock g mode mDecoding t A).2.mConfidenceEnergyRatios = A.mConfidenceEnergyRatios + sums.1 / half ∧
      (decodeBlock g mode mDecoding t A).2.mReceivedOxysVolume = A.mReceivedOxysVolume + sums.2 / half := by
  have hkeep := (ComputeStats_spec g mode mDecoding t A).1
  have hkeep' := hkeep.trans (noteTokens_keeps mode t _)
  obtain ⟨hconfidence, hvolume⟩ := stats_sums g mode mDecoding t A
  have hsums : ∀ max, agreement max t (noteTokens mode t (ComputeStats g mode mDecoding t A)) =
      blockConfidence g mode mDecoding A t max := fun max => by
    unfold agreement blockConfidence
    rw [hkeep'.size]
    refine forUp_congr (fun k st _ hk => ?_) _
    have hnoted := ComputeStats_noted g mode mDecoding t A hk
    have htoken := noteTokens_noted mode t (ComputeStats g mode mDecoding t A) (hkeep.size ▸ hk)
    rw [hkeep.blockPos] at htoken
    simp only [hkeep'.blockPos, htoken, withToken, hnoted.toneMax, hnoted.toneSecond, hnoted.ratioMax,
      hnoted.ratioSecond, hnoted.energy]
  refine ⟨?_, ?_⟩
  · refine Eq.trans ?_ (congrArg₂ (· + ·) hconfidence (congrArg₂ (· / ·) (congrArg Prod.fst (hsums _))
      (congrArg (fun n : ℕ => (ofInt (n / 2 : ℕ) : F)) hkeep'.size)))
    rfl
  · refine Eq.trans ?_ (congrArg₂ (· + ·) hvolume (congrArg₂ (· / ·) (congrArg Prod.snd (hsums _))
      (congrArg (fun n : ℕ => (ofInt (n / 2 : ℕ) : F)) hkeep'.size)))
    rfl

/-! ## Two blocks -/

/-- Two blocks of the same length whose frames have the same energies. -/
structure SameBlock (g : Globals F) (mode mDecoding : ℤ) (A : Analysis F) (t : ℕ) (A' : Analysis F) (t' : ℕ) :
    Prop where
  size : A'.mSizeBlockCircularBuffer = A.mSizeBlockCircularBuffer
  spectrum : A'.mSpectralAnalysis.mSpecSize = A.mSpectralAnalysis.mSpecSize
  energy : (A'.energyBlock t' : D) = A.energyBlock t
  sums : ∀ k < A.mSizeBlockCircularBuffer / 2, ∀ i < mNumTones,
    (toneSum g mode mDecoding A' t' k i : D) = toneSum g mode mDecoding A t k i

section SameBlock

variable {g : Globals F} {mode mDecoding : ℤ} {A A' : Analysis F} {t t' : ℕ}

theorem SameBlock.ratio (h : SameBlock g mode mDecoding A t A' t') {k i : ℕ} (hk : k < A.mSizeBlockCircularBuffer / 2)
    (hi : i < mNumTones) : toneRatio g mode mDecoding A' t' k i = toneRatio g mode mDecoding A t k i := by
  rw [toneRatio, toneRatio, h.sums k hk i hi, h.energy]

theorem SameBlock.toneEnergy (h : SameBlock g mode mDecoding A t A' t') {k i : ℕ}
    (hk : k < A.mSizeBlockCircularBuffer / 2) (hi : i < mNumTones) :
    toneEnergy g mode mDecoding A' t' k i = toneEnergy g mode mDecoding A t k i := by
  rw [Analysis.toneEnergy, Analysis.toneEnergy, h.sums k hk i hi, h.spectrum, h.size]

theorem SameBlock.strongest (h : SameBlock g mode mDecoding A t A' t') {k : ℕ}
    (hk : k < A.mSizeBlockCircularBuffer / 2) :
    strongestTones g mode mDecoding A' t' k = strongestTones g mode mDecoding A t k := by
  have hcmp : ∀ i < mNumTones, ∀ j < mNumTones,
      floatGt (toneRatio g mode mDecoding A' t' k i) (toneRatio g mode mDecoding A' t' k j) =
        floatGt (toneRatio g mode mDecoding A t k i) (toneRatio g mode mDecoding A t k j) := fun i hi j hj => by
    rw [h.ratio hk hi, h.ratio hk hj]
  exact Prod.ext (maxValueIdx_rank (show 0 < mNumTones by decide) hcmp)
    (secondValueIdx_rank (show 2 ≤ mNumTones by decide) hcmp)

theorem SameBlock.votedTones (h : SameBlock g mode mDecoding A t A' t') :
    votedTones g mode mDecoding A' t' = votedTones g mode mDecoding A t := by
  have hvotes : votes g mode mDecoding A' t' (A.mSizeBlockCircularBuffer / 2) =
      votes g mode mDecoding A t (A.mSizeBlockCircularBuffer / 2) := by
    funext i
    refine Finset.sum_congr rfl fun k hk => ?_
    rw [h.strongest (Finset.mem_range.1 hk)]
  rw [Analysis.votedTones, Analysis.votedTones, h.size, hvotes]

/-- They have the same value. -/
theorem SameBlock.value (h : SameBlock g mode mDecoding A t A' t') :
    (decodeBlock g mode mDecoding t' A').1 = (decodeBlock g mode mDecoding t A).1 := by
  rw [decodeBlock_value, decodeBlock_value, h.votedTones]

theorem SameBlock.confidence (h : SameBlock g mode mDecoding A t A' t') (max : ℤ) :
    blockConfidence g mode mDecoding A' t' max = blockConfidence g mode mDecoding A t max := by
  unfold blockConfidence
  rw [h.size]
  refine forUp_congr (fun k st _ hk => ?_) _
  have hmax : (strongestTones g mode mDecoding A t k).1 < mNumTones :=
    maxValueIdx_lt floatGt (toneRatio g mode mDecoding A t k) (show 0 < mNumTones by decide)
  have hsecond : (strongestTones g mode mDecoding A t k).2 < mNumTones :=
    (secondValueIdx_spec floatGt (toneRatio g mode mDecoding A t k) (show 2 ≤ mNumTones by decide)).1
  simp only [h.strongest hk, h.ratio hk hmax, h.ratio hk hsecond, h.toneEnergy hk hmax, h.toneEnergy hk hsecond]

/-- They add the same to the confidence and to the volume. -/
theorem SameBlock.adds (h : SameBlock g mode mDecoding A t A' t')
    (hconfidence : A'.mConfidenceEnergyRatios = A.mConfidenceEnergyRatios)
    (hvolume : A'.mReceivedOxysVolume = A.mReceivedOxysVolume) :
    (decodeBlock g mode mDecoding t' A').2.mConfidenceEnergyRatios =
        (decodeBlock g mode mDecoding t A).2.mConfidenceEnergyRatios ∧
      (decodeBlock g mode mDecoding t' A').2.mReceivedOxysVolume =
        (decodeBlock g mode mDecoding t A).2.mReceivedOxysVolume := by
  obtain ⟨hc, hv⟩ := decodeBlock_sums g mode mDecoding t A
  obtain ⟨hc', hv'⟩ := decodeBlock_sums g mode mDecoding t' A'
  rw [hc, hc', hv, hv', hconfidence, hvolume, h.value, h.confidence, h.size]
  exact ⟨rfl, rfl⟩

end SameBlock

/-- A block moves the read position half a ring on, counted from the end of the start tokens. -/
theorem decodeBlock_moves (g : Globals F) (mode mDecoding : ℤ) (t : ℕ) (A : Analysis F) :
    ∃ A', KeepsBlock A A' ∧ (decodeBlock g mode mDecoding t A).2 = consumeBlock t A' := by
  refine ⟨_, ?_, rfl⟩
  have h := (ComputeStats_spec g mode mDecoding t A).1.trans (noteTokens_keeps mode t _)
  exact ⟨h.spectral, h.mag, h.write, h.size, h.tolerance, h.start, h.acc, h.read, h.bins, h.beginBin, h.endBin⟩

end Analysis

end Undertone
