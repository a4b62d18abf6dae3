import Undertone.Exact
import Undertone.History
import Undertone.SameMessage

/-!
# Silence

The search counts a frame toward the first start token when the first tone of this token is sorted to the front. The
sort is stable and this tone is the first one, so the frame is also counted when other tones have the same energy, and
when it is silent: then every energy ratio is `0 / 0`, and no comparison with it holds (`Measured.counted_iff`). While
no frame ties, every start is of frames in which the tone stands out (`silence_no_start`); and silence before another
chord is reported as a start (`silence_counted`).
-/

namespace Undertone

open CountedLoop RingBuffer Globals

namespace Analysis

/-! ## The tones of a frame -/

section Tones

variable {F D : Type} [Doubles D] [Floats F D]

/-- The energy of tone `i` in a spectrum. -/
def startEnergy (L : Lane F) (mSpecMag : ℕ → F) (i : ℕ) : F :=
  Globals.sum (fun n : ℕ => cell mSpecMag (L.mFreqsBins i - mBinWidth + n)) mSizeTokenBinAnal

/-- The energy mean in the alphabet frequency region. -/
def startEnergyBlock (L : Lane F) (mSpecMag : ℕ → F) : F :=
  forUp 0 (L.mEndBin - L.mBeginBin + 1).toNat (fun i energyBlock => energyBlock + cell mSpecMag (L.mBeginBin + i))
    (Floats.lit 0) / ofInt (L.mEndBin - L.mBeginBin + 1)

theorem startRatio_energies (L : Lane F) (mSpecMag : ℕ → F) (i : ℕ) : startRatio L mSpecMag i =
    Floats.ofDouble (Doubles.lit 20 * Doubles.log10 (Floats.toDouble (startEnergy L mSpecMag i) /
      Doubles.lit mSizeTokenBinAnal / Floats.toDouble (startEnergyBlock L mSpecMag))) := rfl

/-- The first tone of the first start token has strictly more energy than every other tone. -/
def StandsOut (L : Lane F) (mSpecMag : ℕ → F) : Prop :=
  ∀ i < mNumTones, (i : ℤ) ≠ idxTonesFrontDoorToken1.1 →
    Floats.lt (startEnergy L mSpecMag i) (cell (startEnergy L mSpecMag) idxTonesFrontDoorToken1.1) = true

instance (L : Lane F) (mSpecMag : ℕ → F) : Decidable (StandsOut L mSpecMag) :=
  inferInstanceAs (Decidable (∀ i < mNumTones, _ → _))

/-- All tones have equal energy. -/
def Tied (L : Lane F) (mSpecMag : ℕ → F) : Prop :=
  ∀ i < mNumTones, ∀ j < mNumTones, startEnergy L mSpecMag i = startEnergy L mSpecMag j

/-- Two lanes that listen to the same bins. -/
structure SameBins (L L' : Lane F) : Prop where
  bins : L'.mFreqsBins = L.mFreqsBins
  beginBin : L'.mBeginBin = L.mBeginBin
  endBin : L'.mEndBin = L.mEndBin

variable {L L' : Lane F}

omit [Doubles D] in
theorem SameBins.startEnergy (h : SameBins L L') (mSpecMag : ℕ → F) :
    startEnergy L' mSpecMag = startEnergy L mSpecMag := by
  unfold Analysis.startEnergy
  rw [h.bins]

omit [Doubles D] in
theorem SameBins.startEnergyBlock (h : SameBins L L') (mSpecMag : ℕ → F) :
    startEnergyBlock L' mSpecMag = startEnergyBlock L mSpecMag := by
  unfold Analysis.startEnergyBlock
  rw [h.beginBin, h.endBin]

theorem SameBins.startTones (h : SameBins L L') (mSpecMag : ℕ → F) : startTones L' mSpecMag = startTones L mSpecMag :=
  startTones_congr (fun i _ => congrFun h.bins i) h.beginBin h.endBin mSpecMag

end Tones

section Exact

open Extended

variable {L L' : Lane Extended} {mSpecMag : ℕ → Extended}

/-- The energies are numbers. -/
structure Measured (L : Lane Extended) (mSpecMag : ℕ → Extended) (energy : ℕ → ℝ) (energyBlock : ℝ) : Prop where
  tone : ∀ i < mNumTones, 0 ≤ energy i ∧ startEnergy L mSpecMag i = real (energy i)
  block : 0 ≤ energyBlock ∧ startEnergyBlock L mSpecMag = real energyBlock

theorem Measured.ratio {energy : ℕ → ℝ} {energyBlock : ℝ} (h : Measured L mSpecMag energy energyBlock) {i : ℕ}
    (hi : i < mNumTones) :
    startRatio L mSpecMag i = real 20 * Extended.log10 (real (energy i / 3) / real energyBlock) := by
  have h20 : (Doubles.lit 20 : Extended) = real 20 := congrArg real (by norm_num)
  have h3 : (Doubles.lit (mSizeTokenBinAnal : ℕ) : Extended) = real 3 :=
    congrArg real (by norm_num [mSizeTokenBinAnal, mBinWidth])
  rw [startRatio_energies, (h.tone i hi).2, h.block.2, h20, h3]
  exact congrArg (fun u => real 20 * Extended.log10 (u / real energyBlock)) (real_div (by norm_num))

/-- In a frame that is not silent the energy ratios are ordered as the energies are. -/
theorem Measured.lt {energy : ℕ → ℝ} {energyBlock : ℝ} (h : Measured L mSpecMag energy energyBlock)
    (hpos : 0 < energyBlock) {i j : ℕ} (hi : i < mNumTones) (hj : j < mNumTones) :
    Floats.lt (startRatio L mSpecMag i) (startRatio L mSpecMag j) = decide (energy i < energy j) := by
  have hnonneg : ∀ k < mNumTones, 0 ≤ energy k / 3 / energyBlock := fun k hk => by
    have := (h.tone k hk).1
    positivity
  rw [h.ratio hi, h.ratio hj, real_div hpos.ne', real_div hpos.ne']
  refine decide_eq_decide.2 ?_
  rw [mul_lt_mul_iff (by norm_num), log10_lt (hnonneg i hi) (hnonneg j hj), div_lt_div_iff_of_pos_right hpos,
    div_lt_div_iff_of_pos_right (by norm_num)]

/-- In a silent frame no energy ratio is less than that of another tone. -/
theorem Measured.silent {energy : ℕ → ℝ} (h : Measured L mSpecMag energy 0) {i : ℕ} (hi : i < mNumTones)
    (u : Extended) : Floats.lt (startRatio L mSpecMag i) u = false := by
  refine lt_eq_false ?_
  rw [h.ratio hi, Extended.div_zero]
  rcases (h.tone i hi).1.eq_or_lt with hzero | hpos
  · rw [← hzero, zero_div, sign_zero]
    exact not_nan_lt
  · have hinf : real 20 * Extended.log10 posInf = posInf := mul_posInf (by norm_num)
    rw [sign_pos (by positivity)]
    show ¬ real 20 * Extended.log10 posInf < u
    rw [hinf]
    exact not_posInf_lt

/-- A frame is counted toward the first start token exactly when it is silent or no tone has more energy than the first
tone of this token. -/
theorem Measured.counted_iff {energy : ℕ → ℝ} {energyBlock : ℝ} (h : Measured L mSpecMag energy energyBlock) :
    (startTones L mSpecMag).1 = idxTonesFrontDoorToken1.1 ↔
      energyBlock = 0 ∨ ∀ i < mNumTones, energy i ≤ energy 0 := by
  have hfirst : (startTones L mSpecMag).1 = idxTonesFrontDoorToken1.1 ↔
      (sortTones Floats.lt mNumTones (startRatio L mSpecMag)).2 0 = 0 := Int.natCast_eq_zero
  rw [hfirst]
  rcases h.block.1.eq_or_lt with hzero | hpos
  · subst hzero
    exact iff_of_true (sortTones_stays fun j hj => h.silent (by decide) _) (Or.inl rfl)
  · have hsame : (sortTones Floats.lt mNumTones (startRatio L mSpecMag)).2 =
        (sortTones (fun x y : ℝ => decide (x < y)) mNumTones energy).2 :=
      sortTones_rank fun i hi j hj => h.lt hpos hi hj
    rw [hsame, or_iff_right hpos.ne']
    constructor
    · intro h0 i hi
      have hle : energy i ≤ energy ((sortTones (fun x y : ℝ => decide (x < y)) mNumTones energy).2 0) :=
        le_sortTones (fun _ _ => decide_eq_true_iff) i hi
      rwa [h0] at hle
    · exact fun hle => sortTones_stays fun j hj => decide_eq_false (not_lt.2 (hle j hj))

theorem StandsOut.not_tied (h : StandsOut L mSpecMag) : ¬ Tied L mSpecMag := by
  intro htied
  have hlt := lt_iff.1 (h 1 (by decide) (by decide))
  rw [htied 1 (by decide) 0 (by decide)] at hlt
  exact lt_irrefl' hlt

/-- The energies of the frame do not tie: the first tone of the first start token has the most, or it is not silent and
some tone has more. -/
def Clear (L : Lane Extended) (mSpecMag : ℕ → Extended) : Prop :=
  StandsOut L mSpecMag ∨
    ∃ energy energyBlock, Measured L mSpecMag energy energyBlock ∧
      0 < energyBlock ∧ ∃ i < mNumTones, energy 0 < energy i

theorem SameBins.standsOut (h : SameBins L L') : StandsOut L' mSpecMag ↔ StandsOut L mSpecMag := by
  unfold StandsOut
  rw [h.startEnergy]

theorem SameBins.clear (h : SameBins L L') : Clear L' mSpecMag ↔ Clear L mSpecMag := by
  have hmeasured : ∀ energy energyBlock,
      Measured L' mSpecMag energy energyBlock ↔ Measured L mSpecMag energy energyBlock := fun energy energyBlock => by
    constructor
    · rintro ⟨htone, hblock⟩
      rw [h.startEnergy] at htone
      rw [h.startEnergyBlock] at hblock
      exact ⟨htone, hblock⟩
    · rintro ⟨htone, hblock⟩
      rw [← h.startEnergy] at htone
      rw [← h.startEnergyBlock] at hblock
      exact ⟨htone, hblock⟩
  simp only [Clear, h.standsOut, hmeasured]

theorem Clear.standsOut (h : Clear L mSpecMag) (hcounted : (startTones L mSpecMag).1 = idxTonesFrontDoorToken1.1) :
    StandsOut L mSpecMag := by
  rcases h with h | ⟨energy, energyBlock, hmeasured, hpos, i, hi, hlt⟩
  · exact h
  · rcases hmeasured.counted_iff.1 hcounted with hzero | hle
    · exact absurd hzero hpos.ne'
    · exact absurd (hle i hi) (not_le.2 hlt)

/-- A frame whose energies are numbers is counted for its strongest tone alone exactly when they do not tie. -/
theorem Measured.clear_iff {energy : ℕ → ℝ} {energyBlock : ℝ} (h : Measured L mSpecMag energy energyBlock) :
    Clear L mSpecMag ↔ ((startTones L mSpecMag).1 = idxTonesFrontDoorToken1.1 → StandsOut L mSpecMag) := by
  refine ⟨fun hclear hcounted => hclear.standsOut hcounted, fun hstands => ?_⟩
  by_cases hcounted : (startTones L mSpecMag).1 = idxTonesFrontDoorToken1.1
  · exact Or.inl (hstands hcounted)
  · rw [h.counted_iff, not_or] at hcounted
    obtain ⟨hne, hgreater⟩ := hcounted
    simp only [not_forall, not_le] at hgreater
    obtain ⟨i, hi, hlt⟩ := hgreater
    exact Or.inr ⟨energy, energyBlock, h, lt_of_le_of_ne h.block.1 (Ne.symm hne), i, hi, hlt⟩

/-! ## Frames of numbers -/

/-- The energies in a spectrum whose magnitudes are numbers, where all bins that are read are of the spectrum. -/
theorem measured_of_numbers {n : ℕ} {x : ℕ → ℝ} (hin : Checked.InSpectrum n L L.mFreqsBins)
    (hlen : L.mBeginBin ≤ L.mEndBin) (hmag : ∀ m < n, mSpecMag m = real (x m)) (hx : ∀ m < n, 0 ≤ x m) :
    Measured L mSpecMag
      (fun i => Globals.sum (fun k : ℕ => cell x (L.mFreqsBins i - mBinWidth + k)) mSizeTokenBinAnal)
      (Globals.sum (fun k : ℕ => cell x (L.mBeginBin + k)) (L.mEndBin - L.mBeginBin + 1).toNat /
        ofInt (L.mEndBin - L.mBeginBin + 1)) := by
  obtain ⟨hregion, htones⟩ := Checked.inSpectrum_iff.1 hin
  have hsum : ∀ {y : ℕ → ℝ} {size : ℕ}, (∀ k < size, 0 ≤ y k) → 0 ≤ Globals.sum y size := fun hy =>
    forUp_rule (P := fun _ s => 0 ≤ s) (Nat.zero_le _) (le_of_eq (by rw [lit_eq]; norm_num)) fun k _ _ hk hs =>
      add_nonneg hs (hy k hk)
  have hcount : (0 : ℝ) < ofInt (L.mEndBin - L.mBeginBin + 1) := by
    rw [ofInt_eq]
    have : 0 < L.mEndBin - L.mBeginBin + 1 := by omega
    exact_mod_cast this
  constructor
  · intro i hi
    have hread : ∀ k < mSizeTokenBinAnal, (L.mFreqsBins i - (mBinWidth : ℕ) + (k : ℕ)).toNat < n := by
      intro k hk
      obtain ⟨hlow, hhigh⟩ := htones i hi
      have hk : k < 3 := hk
      have hwidth : mBinWidth = 1 := rfl
      omega
    exact ⟨hsum fun k hk => hx _ (hread k hk), sum_real fun k hk => hmag _ (hread k hk)⟩
  · have hread : ∀ k < (L.mEndBin - L.mBeginBin + 1).toNat, (L.mBeginBin + (k : ℕ)).toNat < n := by
      intro k hk
      have := hregion (L.mBeginBin + k) (by omega) (by omega)
      omega
    refine ⟨div_nonneg (hsum fun k hk => hx _ (hread k hk)) hcount.le, ?_⟩
    have hblock : Globals.sum (fun k : ℕ => cell mSpecMag (L.mBeginBin + k)) (L.mEndBin - L.mBeginBin + 1).toNat = _ :=
      sum_real fun k hk => hmag _ (hread k hk)
    exact (congrArg (· / ofInt (L.mEndBin - L.mBeginBin + 1)) hblock).trans (real_div hcount.ne')

/-- The energies of a frame of numbers are numbers: it is clear exactly when it is not counted for a tie. -/
theorem clear_iff_of_numbers {S : SpectralAnalysis Extended} {frame : ℕ → Extended} (hmode : S.mode = .kEnergySpectrum)
    (hsize : 2 ≤ S.mFftSize) (hwindow : ∀ i < S.mFftSize, ∃ w, S.mWindow i = real w)
    (hframe : ∀ i < S.mFftSize, ∃ x, frame i = real x) (hin : Checked.InSpectrum S.mSpecSize L L.mFreqsBins)
    (hlen : L.mBeginBin ≤ L.mEndBin) : Clear L (S.doFFT frame).mSpecMag ↔
      ((startTones L (S.doFFT frame).mSpecMag).1 = idxTonesFrontDoorToken1.1 →
        StandsOut L (S.doFFT frame).mSpecMag) := by
  choose w hw using hwindow
  choose x hx using hframe
  let S0 : SpectralAnalysis ℝ := { (default : SpectralAnalysis ℝ) with
    mode := S.mode
    mFftSize := S.mFftSize
    mWindow := fun i => if h : i < S.mFftSize then w i h else 0 }
  have hsame : SpectralAnalysis.SameTransform real S0 S := by
    refine ⟨rfl, rfl, fun i hi => ?_⟩
    exact (hw i hi).trans (congrArg real (dif_pos hi).symm)
  let samples : ℕ → ℝ := fun i => if h : i < S.mFftSize then x i h else 0
  have hsamples : ∀ i < S.mFftSize, frame i = real (samples i) := fun i hi =>
    (hx i hi).trans (congrArg real (dif_pos hi).symm)
  have hspectrum := hsame.spectrum carries_real hsize hsamples
  exact (measured_of_numbers hin hlen hspectrum (doFFT_nonneg S0 _ hmode)).clear_iff

end Exact

/-! ## What the search notes of a frame -/

section Search

variable {F D : Type} [Doubles D] [Floats F D] [CFFTOoura F] {A0 A : Analysis F} {t u : ℕ}

omit [Doubles D] [Floats F D] [CFFTOoura F] in
theorem searchLoop_spectral {found : ℕ → Analysis F → Bool} : ∀ (fuel : ℕ) (A : Analysis F),
    (searchLoop found t fuel A).2.mSpectralAnalysis = A.mSpectralAnalysis
  | 0, _ => rfl
  | fuel + 1, A => by
    unfold searchLoop
    split
    · split
      · rfl
      · exact searchLoop_spectral fuel (advanceReadPos t A)
    · rfl

omit [Doubles D] [Floats F D] [CFFTOoura F] in
/-- A search that finds the start tokens finds them in the window that it looks at first. -/
theorem searchLoop_first {found : ℕ → Analysis F → Bool}
    (hpos : 2 ≤ A.mSizeBlockCircularBuffer → (A.lane t).mReadPosInBlockCircularBuffer < A.mSizeBlockCircularBuffer ∧
      A.mWritePosInBlockCircularBuffer < A.mSizeBlockCircularBuffer)
    (h : (searchLoop found t A.mSizeBlockCircularBuffer A).1 = true) :
    found t A = true ∧ (searchLoop found t A.mSizeBlockCircularBuffer A).2 = beginMessage t A := by
  have hfull := searchLoop_found h
  by_cases hfound : found t A = true
  · refine ⟨hfound, ?_⟩
    obtain ⟨fuel, hfuel⟩ : ∃ fuel, A.mSizeBlockCircularBuffer = fuel + 1 := by
      refine ⟨_, (Nat.sub_add_cancel (Nat.pos_of_ne_zero fun h0 => ?_)).symm⟩
      rw [h0] at h
      exact absurd h (by simp [searchLoop])
    rw [hfuel, searchLoop, if_pos (by omega), if_pos hfound]
  · exfalso
    by_cases h2 : 2 ≤ A.mSizeBlockCircularBuffer
    · obtain ⟨hread, hwrite⟩ := hpos h2
      have hlt : A.getSizeFilledBlockCircularBuffer t < A.mSizeBlockCircularBuffer := by
        unfold getSizeFilledBlockCircularBuffer filled
        split <;> omega
      rw [searchLoop_full (by omega) hread hwrite (by omega), if_neg hfound] at h
      exact absurd h (by simp)
    · obtain hn | hn : A.mSizeBlockCircularBuffer = 0 ∨ A.mSizeBlockCircularBuffer = 1 := by omega
      · rw [hn] at h
        exact absurd h (by simp [searchLoop])
      · rw [hn, searchLoop, if_pos (by omega), if_neg hfound] at h
        exact absurd h (by simp [searchLoop])

omit [CFFTOoura F] in
/-- The window that a mode finds the start tokens in. -/
theorem Rounds.opens (h : Rounds A0 t A) (htolerance : A.mnToleranceFrames = A0.mnToleranceFrames)
    (hread : 2 ≤ A0.mSizeBlockCircularBuffer →
      (A0.lane t).mReadPosInBlockCircularBuffer < A0.mSizeBlockCircularBuffer)
    (hfound : (searchMode t A).1 = true) :
    Opens A0.mSizeBlockCircularBuffer A0.mnToleranceFrames fun i =>
      notes ((searchMode t A).2.lane t) (A0.blockPos t i) := by
  have hsize : (looking t A).mSizeBlockCircularBuffer = A0.mSizeBlockCircularBuffer := (looking_size t A).trans h.size
  have hlane : ((looking t A).lane t).mReadPosInBlockCircularBuffer = (A0.lane t).mReadPosInBlockCircularBuffer := by
    rw [looking_lane]
    simp only [rankTones, setLane, Function.update_self]
    exact congrArg Lane.mReadPosInBlockCircularBuffer (h.lane t (le_refl t))
  rw [searchMode_eq] at hfound ⊢
  obtain ⟨hstart, hbegin⟩ := searchLoop_first (fun h2 => by
    rw [hsize] at h2 ⊢
    rw [hlane, h.looking_write]
    exact ⟨hread h2, Nat.mod_lt _ (by omega)⟩) hfound
  have hopens := (startFound_iff t (looking t A)).1 hstart
  rw [hsize, looking_tolerance, htolerance] at hopens
  refine (Opens.congr fun i _ => ?_).1 hopens
  have hnotes : notes ((beginMessage t (looking t A)).lane t) = notes ((looking t A).lane t) := setRead_notes _ t t _
  rw [hbegin, hnotes]
  unfold blockPos
  rw [hsize, hlane]

omit [CFFTOoura F] in
theorem searchMode_tolerance (t : ℕ) (A : Analysis F) :
    (searchMode t A).2.mnToleranceFrames = A.mnToleranceFrames := by
  have hloop : ∀ (fuel : ℕ) (B : Analysis F),
      (searchLoop startFound t fuel B).2.mnToleranceFrames = B.mnToleranceFrames := by
    intro fuel
    induction fuel with
    | zero => exact fun _ => rfl
    | succ fuel ih =>
      intro B
      unfold searchLoop
      split
      · split
        · rfl
        · exact ih (advanceReadPos t B)
      · rfl
  rw [searchMode_eq, hloop, looking_tolerance]

omit [CFFTOoura F] in
/-- The window with which a start is reported holds the start tokens. -/
theorem searchModes_opens : ∀ (modes : ℕ) {t : ℕ} {A : Analysis F}, Rounds A0 t A →
    A.mnToleranceFrames = A0.mnToleranceFrames →
    (2 ≤ A0.mSizeBlockCircularBuffer →
      (A0.lane u).mReadPosInBlockCircularBuffer < A0.mSizeBlockCircularBuffer) →
    (searchModes modes t A).1 = 1 + u →
    Opens A0.mSizeBlockCircularBuffer A0.mnToleranceFrames fun i =>
      notes ((searchModes modes t A).2.lane u) (A0.blockPos u i)
  | 0, t, A, _, _, _, hu => by
    have hu : (0 : ℤ) = 1 + u := hu
    omega
  | modes + 1, t, A, h, htolerance, hread, hu => by
    have hnext := h.next
    have hopens := h.opens htolerance
    have htolerance' := searchMode_tolerance t A
    unfold searchModes at hu ⊢
    rcases hs : searchMode t A with ⟨found, B⟩
    rw [hs] at hnext hopens hu htolerance'
    cases found with
    | true =>
      have hu : 1 + (t : ℤ) = 1 + u := hu
      obtain rfl : t = u := by omega
      exact hopens hread rfl
    | false => exact searchModes_opens modes (hnext rfl) (htolerance'.trans htolerance) hread hu

omit [CFFTOoura F] in
theorem sameBins_searchMode (t s : ℕ) (A : Analysis F) : SameBins (A.lane s) ((searchMode t A).2.lane s) := by
  have h := Checked.sameArrays_searchMode t A
  exact ⟨h.bins s, h.beginBin s, h.endBin s⟩

omit [CFFTOoura F] in
/-- A mode stamps the slot in which it notes the frame. -/
theorem searchMode_noted (t k : ℕ) (A : Analysis F) (stamps : ℕ → ℕ → ℕ) (s pos : ℕ) :
    stampMode k t A stamps s pos = stamps s pos ∧ notes ((searchMode t A).2.lane s) pos = notes (A.lane s) pos ∨
      s = t ∧ stampMode k t A stamps s pos = k ∧
        notes ((searchMode t A).2.lane s) pos = startTones (A.lane s) A.mSpectralAnalysis.mSpecMag := by
  have hnotes : notes ((searchMode t A).2.lane s) = notes ((rankTones t A).lane s) := by
    rw [searchMode_eq, searchLoop_notes, looking_lane]
  rw [hnotes, stampMode, set2_apply]
  by_cases hs : s = t
  · subst hs
    rw [rankTones_notes, put]
    by_cases hpos : pos = A.mWritePosInBlockCircularBuffer % A.mSizeBlockCircularBuffer
    · subst hpos
      exact Or.inr ⟨rfl, if_pos ⟨rfl, rfl⟩, Function.update_self ..⟩
    · exact Or.inl ⟨if_neg fun h => hpos h.2, Function.update_of_ne hpos ..⟩
  · refine Or.inl ⟨if_neg fun h => hs h.1, ?_⟩
    rw [← looking_lane, looking_lane_of_ne hs]

omit [CFFTOoura F] in
/-- The loop over the modes stamps the slots in which it notes the frame. -/
theorem searchModes_noted (k : ℕ) : ∀ (modes t : ℕ) (A : Analysis F) (stamps : ℕ → ℕ → ℕ) (s pos : ℕ),
    stampModes k modes t A stamps s pos = stamps s pos ∧
        notes ((searchModes modes t A).2.lane s) pos = notes (A.lane s) pos ∨
      s < t + modes ∧ stampModes k modes t A stamps s pos = k ∧
        notes ((searchModes modes t A).2.lane s) pos = startTones (A.lane s) A.mSpectralAnalysis.mSpecMag
  | 0, _, _, _, _, _ => Or.inl ⟨rfl, rfl⟩
  | modes + 1, t, A, stamps, s, pos => by
    have hmode := searchMode_noted t k A stamps s pos
    have hspectral : (searchMode t A).2.mSpectralAnalysis = A.mSpectralAnalysis := by
      rw [searchMode_eq, searchLoop_spectral, looking_spectral]
    have hbins := sameBins_searchMode t s A
    unfold stampModes searchModes
    rcases hs : searchMode t A with ⟨found, B⟩
    rw [hs] at hmode hspectral hbins
    cases found with
    | true =>
      refine hmode.imp id ?_
      rintro ⟨rfl, h⟩
      exact ⟨by omega, h⟩
    | false =>
      rcases searchModes_noted k modes (t + 1) B (stampMode k t A stamps) s pos with
        ⟨hstamp, hnote⟩ | ⟨hlt, hstamp, hnote⟩
      · rcases hmode with ⟨hstamp', hnote'⟩ | ⟨rfl, hstamp', hnote'⟩
        · exact Or.inl ⟨hstamp.trans hstamp', hnote.trans hnote'⟩
        · exact Or.inr ⟨by omega, hstamp.trans hstamp', hnote.trans hnote'⟩
      · have hspectral : B.mSpectralAnalysis = A.mSpectralAnalysis := hspectral
        rw [hspectral, hbins.startTones] at hnote
        exact Or.inr ⟨by omega, hstamp, hnote⟩

end Search

end Analysis

namespace History

open Analysis

variable {F D : Type} [Doubles D] [Floats F D] [CFFTOoura F]

/-! ## Where the notes come from -/

/-- Every note is that of a frame with the property, or still that of the constructor. -/
def Noted (c : DecoderClass) (A0 : Analysis F) (P : ℕ → (ℕ → F) → Prop) (H : History F) : Prop :=
  ∀ t < c.lanes, ∀ pos < A0.mSizeBlockCircularBuffer,
    H.stamps t pos = 0 ∧ notes (H.core.analysis.lane t) pos = (-1, -1) ∨
      (0 < H.stamps t pos ∧ H.stamps t pos ≤ H.frames) ∧
        notes (H.core.analysis.lane t) pos = startTones (A0.lane t) (H.spectrum (H.stamps t pos)) ∧
        P t (H.spectrum (H.stamps t pos))

section Noted

variable {c : DecoderClass} {A0 : Analysis F} {P : ℕ → (ℕ → F) → Prop} {H H' : History F} {m : Core.Move F}
  {r : Option ℤ}

/-- Every lane listens to the same bins throughout a run. -/
theorem run_sameBins (hc : c.isMultiTone = true) {log : List (Core.Move F × Option ℤ)} (h : Run (move c) H log H')
    (t : ℕ) : SameBins (H.core.analysis.lane t) (H'.core.analysis.lane t) := by
  have hsame := Core.sameArrays_run hc (run_core h)
  exact ⟨hsame.bins t, hsame.beginBin t, hsame.endBin t⟩

/-- What the search notes is in the notes after the frame. -/
theorem move_notes (hc : c.isMultiTone = true) {g : Globals F} {frame : ℕ → F}
    (hmove : move c (.frame g frame) H = some (r, H')) (h0 : H.core.mDecoding = 0) (t : ℕ) :
    notes (H'.core.analysis.lane t) =
      notes ((searchModes c.lanes 0 (storeSpectrum frame H.core.analysis)).2.lane t) := by
  rcases Core.step_cases (move_frame hmove).1 with ⟨-, ret, A, hA, hcase⟩ | ⟨hd, -⟩ | ⟨hd, -⟩
  · rw [Core.AnalyzeStartTokens_multiTone hc] at hA
    rw [show searchModes c.lanes 0 (storeSpectrum frame H.core.analysis) = (ret, A) from hA]
    by_cases hret : Core.isStart c ret = true
    · rw [if_pos hret] at hcase
      rw [hcase.2, Core.begin]
      simp only [hc, if_true]
      rfl
    · rw [if_neg hret] at hcase
      rw [hcase.2]
  · exact absurd h0 hd
  · exact absurd h0 hd

theorem Noted.step (hc : c.isMultiTone = true) (hbins : ∀ t, SameBins (A0.lane t) (H.core.analysis.lane t))
    (h : Noted c A0 P H) (hmove : move c m H = some (r, H'))
    (hP : ∀ g frame, m = .frame g frame → H.core.mDecoding = 0 → ∀ t < c.lanes,
      P t (H.core.analysis.mSpectralAnalysis.doFFT frame).mSpecMag) : Noted c A0 P H' := by
  cases m with
  | poll =>
    obtain ⟨rfl, rfl⟩ := Prod.mk.inj (Option.some.inj hmove)
    exact h
  | frame g frame =>
    obtain ⟨hstep, hframes, hstamps, hspectrum⟩ := move_frame hmove
    intro t ht pos hpos
    -- a note that this frame leaves as it is
    have hold : H'.stamps t pos = H.stamps t pos →
        notes (H'.core.analysis.lane t) pos = notes (H.core.analysis.lane t) pos →
        H'.stamps t pos = 0 ∧ notes (H'.core.analysis.lane t) pos = (-1, -1) ∨
          (0 < H'.stamps t pos ∧ H'.stamps t pos ≤ H'.frames) ∧
            notes (H'.core.analysis.lane t) pos = startTones (A0.lane t) (H'.spectrum (H'.stamps t pos)) ∧
            P t (H'.spectrum (H'.stamps t pos)) := by
      intro hstamp hnote
      rw [hstamp, hnote, hframes, hspectrum]
      rcases h t ht pos hpos with hnew | ⟨⟨hpos, hle⟩, hfrom⟩
      · exact Or.inl hnew
      · rw [Function.update_of_ne (by omega)]
        exact Or.inr ⟨⟨hpos, by omega⟩, hfrom⟩
    by_cases h0 : H.core.mDecoding = 0
    · rw [if_pos h0] at hstamps
      have hnoted := searchModes_noted (H.frames + 1) c.lanes 0 (storeSpectrum frame H.core.analysis) H.stamps t pos
      have hnotes := move_notes hc hmove h0 t
      rcases hnoted with ⟨hstamp, hnote⟩ | ⟨-, hstamp, hnote⟩
      · exact hold (hstamps ▸ hstamp) (hnotes ▸ hnote)
      · rw [hstamps, hstamp, hnotes, hnote, hframes, hspectrum, Function.update_self]
        exact Or.inr ⟨⟨Nat.succ_pos _, le_refl _⟩, (hbins t).startTones _, hP g frame rfl h0 t ht⟩
    · rw [if_neg h0] at hstamps
      refine hold (by rw [hstamps]) ?_
      have hnotes := message_notes hc h0 g frame t
      rw [hstep] at hnotes
      exact congrFun hnotes pos

theorem run_noted (hc : c.isMultiTone = true) {H0 : History F} (h0 : Noted c H0.core.analysis P H0)
    {log : List (Core.Move F × Option ℤ)} (h : Run (move c) H0 log H)
    (hP : ∀ l g frame r H, l ++ [(.frame g frame, r)] <+: log → Run (move c) H0 l H → H.core.mDecoding = 0 →
      ∀ t < c.lanes, P t (H.core.analysis.mSpectralAnalysis.doFFT frame).mSpecMag) :
    Noted c H0.core.analysis P H := by
  induction h with
  | nil => exact h0
  | @call log H1 H2 m r hrun hm ih =>
    have hnoted := ih fun l g frame r H hl => hP l g frame r H (hl.trans (List.prefix_append _ _))
    refine hnoted.step hc (run_sameBins hc hrun) hm ?_
    rintro g frame rfl
    exact hP log g frame r H1 (List.prefix_refl _) hrun

omit [CFFTOoura F] in
theorem noted_new (mem : Decoder F) (memRS : ReedSolomon) (c : DecoderClass) (g : Globals F) (samplingRate : F)
    (windowSize : ℕ) (P : ℕ → (ℕ → F) → Prop) :
    Noted c (Decoder.new mem memRS c g samplingRate windowSize).core.analysis P
      (new (Decoder.new mem memRS c g samplingRate windowSize).core) := by
  intro t ht pos hpos
  refine Or.inl ⟨rfl, ?_⟩
  have hpos : pos < (Decoder.newAnalysis mem.core.analysis c (g.init windowSize) samplingRate
    windowSize).mSizeBlockCircularBuffer := hpos
  simp only [Decoder.newAnalysis] at hpos
  simp only [new, Decoder.new, Decoder.newAnalysis, if_pos ht, Decoder.newLane, notes, if_pos hpos]

/-- In a search the read positions are of the ring. -/
theorem run_read (hc : c.isMultiTone = true) (mem : Decoder F) (memRS : ReedSolomon) (g : Globals F) (samplingRate : F)
    (windowSize : ℕ) {log : List (Core.Move F × Option ℤ)}
    (h : Run (move c) (new (Decoder.new mem memRS c g samplingRate windowSize).core) log H)
    (h0 : H.core.mDecoding = 0) (hn : 2 ≤ H.core.analysis.mSizeBlockCircularBuffer) {t : ℕ} (ht : t < c.lanes) :
    (H.core.analysis.lane t).mReadPosInBlockCircularBuffer < H.core.analysis.mSizeBlockCircularBuffer := by
  have hcore := run_core h
  by_cases hone : c = .AllMultiTone
  · subst hone
    obtain ⟨T, hT, hTcore⟩ := Trace.exists_run
      (T := Trace.new (Decoder.new mem memRS .AllMultiTone g samplingRate windowSize).core) hcore
    have hring := (Trace.run_kept (Trace.kept_new mem memRS g samplingRate windowSize) hT).inRing
    rw [hTcore] at hring
    have hread := hring.read (by rw [← hring.size]; omega) t ht
    rwa [← hring.size] at hread
  · have hsize := (Core.sameArrays_run hc hcore).size
    have hready := run_ready hc hone (hsize ▸ hn)
      (ready_new mem memRS c g samplingRate windowSize rfl (hsize ▸ hn)) h
    have hn' := hready.size ▸ hn
    obtain rfl : t = 0 := by
      rw [lanes_single hone] at ht
      omega
    rw [hready.size]
    rcases hready.search h0 with hread | ⟨a, b, hread, -⟩
    · rw [hread]
      exact Nat.mod_lt _ (by omega)
    · rw [hread]
      exact Nat.mod_lt _ (by omega)

end Noted

/-! ## Starts -/

/-- The start that is reported for mode `u` with the step from `H` to `H'`: in enough frames of the first half of the
window the first tone of the first start token had strictly more energy than every other tone, and none of the frames
counted toward this token had the same energy at all tones. -/
structure FirstTokenSounds (H H' : History F) (u : ℕ) : Prop where
  enough : ((H.core.analysis.mSizeBlockCircularBuffer / 2 : ℕ) : ℤ) - H.core.analysis.mnToleranceFrames ≤
    ((Finset.Ico 0 (H.core.analysis.mSizeBlockCircularBuffer / 2)).filter fun i =>
      0 < H'.stamps u (H.core.analysis.blockPos u i) ∧
        StandsOut (H.core.analysis.lane u) (H'.spectrum (H'.stamps u (H.core.analysis.blockPos u i)))).card
  untied : ∀ i < H.core.analysis.mSizeBlockCircularBuffer / 2,
    (notes (H'.core.analysis.lane u) (H.core.analysis.blockPos u i)).1 = idxTonesFrontDoorToken1.1 →
      ¬ Tied (H.core.analysis.lane u) (H'.spectrum (H'.stamps u (H.core.analysis.blockPos u i)))

/-- Every start that `AnalyzeStartTokens` reports in the run is of frames with the first start token. -/
def StartsSound (c : DecoderClass) (H0 : History F) (log : List (Core.Move F × Option ℤ)) : Prop :=
  ∀ l g frame r H H' (u : ℕ), l ++ [(.frame g frame, r)] <+: log → Run (move c) H0 l H →
    move c (.frame g frame) H = some (r, H') → H.core.mDecoding = 0 →
    (H.core.analysis.AnalyzeStartTokens c.lanes frame).1 = 1 + u → FirstTokenSounds H H' u

/-- No frame that is searched in the run ties, in any of the modes. -/
def ClearFrames (c : DecoderClass) (H0 : History Extended) (log : List (Core.Move Extended × Option ℤ)) : Prop :=
  ∀ l g frame r H, l ++ [(.frame g frame, r)] <+: log → Run (move c) H0 l H → H.core.mDecoding = 0 →
    ∀ t < c.lanes, Clear (H.core.analysis.lane t) (H.core.analysis.mSpectralAnalysis.doFFT frame).mSpecMag

/-- In exact arithmetic, over any run of a multi-tone decoder: while the energies of no frame that is searched tie,
every start is of frames with the first start token. -/
theorem silence_no_start {c : DecoderClass} (hc : c.isMultiTone = true) (mem : Decoder Extended) (memRS : ReedSolomon)
    (g : Globals Extended) (samplingRate : Extended) (windowSize : ℕ) (log : List (Core.Move Extended × Option ℤ))
    (hclear : ClearFrames c (new (Decoder.new mem memRS c g samplingRate windowSize).core) log) :
    StartsSound c (new (Decoder.new mem memRS c g samplingRate windowSize).core) log := by
  intro l g' frame r H H' u hl hrun hmove h0 hu
  have hbins := run_sameBins hc hrun
  have hsize := (Core.sameArrays_run hc (run_core hrun)).size
  have hlane : u < c.lanes := by
    rcases hA : H.core.analysis.AnalyzeStartTokens c.lanes frame with ⟨ret, A⟩
    rw [hA] at hu
    obtain ⟨-, s, B, hs, hret, -⟩ := searchModes_found (fun h => absurd rfl h) hA (by omega)
    omega
  have hnoted := run_noted hc (noted_new mem memRS c g samplingRate windowSize
      (fun t mag => Clear ((Decoder.new mem memRS c g samplingRate windowSize).core.analysis.lane t) mag))
    (.call hrun hmove) fun l1 g1 frame1 r1 H1 hl1 hrun1 h1 t ht =>
      (run_sameBins hc hrun1 t).clear.1 (hclear l1 g1 frame1 r1 H1 (hl1.trans hl) hrun1 h1 t ht)
  -- a counted slot holds a frame in which the tone stands out
  have hcounted : ∀ i < H.core.analysis.mSizeBlockCircularBuffer / 2,
      (notes (H'.core.analysis.lane u) (H.core.analysis.blockPos u i)).1 = idxTonesFrontDoorToken1.1 →
      0 < H'.stamps u (H.core.analysis.blockPos u i) ∧
        StandsOut (H.core.analysis.lane u) (H'.spectrum (H'.stamps u (H.core.analysis.blockPos u i))) := by
    intro i hi hnote
    have hpos : H.core.analysis.blockPos u i <
        (Decoder.new mem memRS c g samplingRate windowSize).core.analysis.mSizeBlockCircularBuffer := by
      have hlt : H.core.analysis.blockPos u i < H.core.analysis.mSizeBlockCircularBuffer := Nat.mod_lt _ (by omega)
      rwa [hsize] at hlt
    rcases hnoted u hlane _ hpos with ⟨-, hnew⟩ | ⟨⟨hstamp, -⟩, hfrom, hclear⟩
    · rw [hnew] at hnote
      exact absurd hnote (by decide)
    · rw [hfrom] at hnote
      exact ⟨hstamp, (hbins u).standsOut.2 (hclear.standsOut hnote)⟩
  refine ⟨?_, fun i hi hnote => (hcounted i hi hnote).2.not_tied⟩
  have hrounds : Rounds H.core.analysis 0 (storeSpectrum frame H.core.analysis) :=
    ⟨rfl, (if_pos rfl).symm, fun _ _ => rfl⟩
  have hopens := searchModes_opens c.lanes hrounds rfl
    (fun hn => run_read hc mem memRS g samplingRate windowSize hrun h0 hn hlane) hu
  refine hopens.1.trans ?_
  refine Int.ofNat_le.2 (Finset.card_le_card fun i hi => ?_)
  obtain ⟨hrange, hnote⟩ := Finset.mem_filter.1 hi
  rw [← move_notes hc hmove h0 u] at hnote
  exact Finset.mem_filter.2 ⟨hrange, hcounted i (Finset.mem_Ico.1 hrange).2 hnote⟩

end History

/-! ## The audible decoder -/

namespace Analysis

open Extended

/-- The mean over the bins of the alphabet of the audible mode. -/
noncomputable def alphabetMean (x : ℕ → ℝ) : ℝ := Globals.sum (fun i => x (153 + i)) 281 / 281

section Tuned

variable {S : SpectralAnalysis Extended} {L : Lane Extended} {mag : ℕ → Extended} {x : ℕ → ℝ}

theorem measured_of_tuned (h : Decoder.Tuned S L) (hmag : ∀ m < 1025, mag m = real (x m)) (hx : ∀ m < 1025, 0 ≤ x m) :
    Measured L mag (fun i => around x (audibleBin 0 i)) (alphabetMean x) := by
  have hin : Checked.InSpectrum 1025 L L.mFreqsBins := by
    refine Checked.inSpectrum_iff.2 ⟨fun bin hlow hhigh => ?_, fun i hi => ?_⟩
    · rw [h.beginBin] at hlow
      rw [h.endBin] at hhigh
      omega
    · have hi : i < 9 := hi
      rw [h.bins i hi]
      unfold audibleBin
      omega
  have hmeasured := measured_of_numbers hin (by rw [h.beginBin, h.endBin]; decide) hmag hx
  constructor
  · intro i hi
    obtain ⟨hnonneg, henergy⟩ := hmeasured.tone i hi
    have hsum := sum_three x (show 1 ≤ audibleBin 0 i by unfold audibleBin; omega)
    rw [← h.bins i hi] at hsum
    exact ⟨le_of_le_of_eq hnonneg hsum, henergy.trans (congrArg real hsum)⟩
  · have hblock := hmeasured.block
    have hlen : (ofInt (433 - 153 + 1) : ℝ) = 281 := by
      rw [ofInt_eq]
      norm_num
    rw [h.beginBin, h.endBin, hlen] at hblock
    exact hblock

/-- The energies of the tones, and the search, follow the ranking. -/
structure Orders (rank : ℕ → ℕ) (L : Lane Extended) (mag : ℕ → Extended) : Prop where
  energy : ∀ i < mNumTones, ∀ j < mNumTones,
    Floats.lt (startEnergy L mag i) (startEnergy L mag j) = decide (rank i < rank j)
  tones : startTones L mag = (((sorted rank 0 : ℕ) : ℤ), ((sorted rank 1 : ℕ) : ℤ))

theorem Orders.standsOut_iff {rank : ℕ → ℕ} (h : Orders rank L mag) :
    StandsOut L mag ↔ ∀ i < 9, i ≠ 0 → rank i < rank 0 := by
  refine forall_congr' fun i => forall_congr' fun hi => imp_congr Int.natCast_ne_zero ?_
  have hfirst : cell (startEnergy L mag) idxTonesFrontDoorToken1.1 = startEnergy L mag 0 := rfl
  rw [hfirst, h.energy i hi 0 (by decide), decide_eq_true_iff]

/-- The spectrum of samples that are numbers. -/
theorem tuned_spectrum (h : Decoder.Tuned S L) (frame : ℕ → ℝ) : ∀ m < 1025,
    (S.doFFT fun j => real (frame j)).mSpecMag m =
      real ((Decoder.audible.core.analysis.mSpectralAnalysis.doFFT frame).mSpecMag m) :=
  h.transform.spectrum carries_real (by decide) fun _ _ => rfl

theorem orders_of_sounds (h : Decoder.Tuned S L) {rank : ℕ → ℕ → ℕ} {frame : ℕ → ℝ} (hs : Sounds rank frame) :
    Orders (rank 0) L (S.doFFT fun j => real (frame j)).mSpecMag := by
  have hranked := hs _ Decoder.audible_settings.mode Decoder.audible_settings.fft Decoder.audible_settings.window
  have hmeasured := measured_of_tuned h (tuned_spectrum h frame) (doFFT_nonneg _ frame Decoder.audible_settings.mode)
  have hmean : 0 < alphabetMean (Decoder.audible.core.analysis.mSpectralAnalysis.doFFT frame).mSpecMag := by
    refine div_pos (forUp_add_pos (by decide) (fun i hi => ?_) (le_of_eq (by rw [lit_eq]; norm_num))) (by norm_num)
    exact hranked.pos _ (by omega) (by omega)
  constructor
  · intro i hi j hj
    rw [(hmeasured.tone i hi).2, (hmeasured.tone j hj).2]
    exact decide_eq_decide.2 (hranked.order 0 (by decide) i hi j hj)
  · refine startTones_rank fun i hi j hj => ?_
    rw [hmeasured.lt hmean hi hj]
    exact decide_eq_decide.2 (hranked.order 0 (by decide) i hi j hj)

/-- Silence has the ranking in which all tones tie. -/
theorem orders_of_silence (h : Decoder.Tuned S L) {frame : ℕ → ℝ} (hzero : ∀ j < 2048, frame j = 0) :
    Orders (fun _ => 0) L (S.doFFT fun j => real (frame j)).mSpecMag := by
  have hmag : ∀ m, 1 ≤ m → m < 1024 → (Decoder.audible.core.analysis.mSpectralAnalysis.doFFT frame).mSpecMag m = 0 := by
    intro m h1 hm
    have hsum : ∀ f : ℕ → ℝ, ∑ j ∈ Finset.range 2048,
        frame j * Decoder.audible.core.analysis.mSpectralAnalysis.mWindow j * f j = 0 := fun f =>
      Finset.sum_eq_zero fun j hj => by rw [hzero j (Finset.mem_range.1 hj), zero_mul, zero_mul]
    rw [doFFT_energy _ _ Decoder.audible_settings.mode Decoder.audible_settings.fft h1 hm, hsum, hsum]
    norm_num
  have hmeasured := measured_of_tuned h (tuned_spectrum h frame) (doFFT_nonneg _ frame Decoder.audible_settings.mode)
  have haround : ∀ i < 9,
      around (Decoder.audible.core.analysis.mSpectralAnalysis.doFFT frame).mSpecMag (audibleBin 0 i) = 0 := by
    intro i hi
    unfold around audibleBin
    rw [hmag _ (by omega) (by omega), hmag _ (by omega) (by omega), hmag _ (by omega) (by omega)]
    norm_num
  have hmean : alphabetMean (Decoder.audible.core.analysis.mSpectralAnalysis.doFFT frame).mSpecMag = 0 := by
    have hsum : Globals.sum
        (fun i => (Decoder.audible.core.analysis.mSpectralAnalysis.doFFT frame).mSpecMag (153 + i)) 281 = (0 : ℝ) := by
      refine forUp_rule (P := fun _ (s : ℝ) => s = 0) (Nat.zero_le _) (by rw [lit_eq]; norm_num) ?_
      rintro i s - hi rfl
      exact (zero_add _).trans (hmag _ (by omega) (by omega))
    rw [alphabetMean, hsum, zero_div]
  rw [hmean] at hmeasured
  constructor
  · intro i hi j hj
    rw [(hmeasured.tone i hi).2, (hmeasured.tone j hj).2, haround i hi, haround j hj]
    exact lt_eq_false lt_irrefl'
  · exact startTones_rank fun i hi j hj => hmeasured.silent hi _

end Tuned

end Analysis

namespace History

open Analysis Extended

/-- The audible decoder at 44100 Hz, searching. -/
theorem audibleExtended_fresh : Fresh 1 Decoder.audibleExtended.core.analysis :=
  fresh_fresh (fun _ => default) default initial (real 44100) 2048 .AudibleMultiTone

/-- What is heard of frames with these rankings. -/
def rankHeard (rank : ℕ → ℕ → ℕ) (q : ℕ) : ℤ × ℤ :=
  let idx := sorted (rank (q - 36))
  if q < 36 then (-1, -1) else (idx 0, idx 1)

/-- A frame of samples that are numbers. -/
noncomputable def realFrames (frames : ℕ → ℕ → ℝ) (k j : ℕ) : Extended := real (frames k j)

section Audible

variable {frames : ℕ → ℕ → ℝ} {rank : ℕ → ℕ → ℕ}

theorem spectra_tuned (frames : ℕ → ℕ → Extended) : ∀ k,
    Decoder.Tuned (spectra frames Decoder.audibleExtended.core.analysis.mSpectralAnalysis k)
      (Decoder.audibleExtended.core.analysis.lane 0)
  | 0 => Decoder.audibleExtended_tuned
  | k + 1 =>
    have h := spectra_tuned frames k
    ⟨h.transform.doFFT, h.bins, h.beginBin, h.endBin⟩

theorem audible_heard
    (horders : ∀ k S L, Decoder.Tuned S L → Orders (rank k) L (S.doFFT (realFrames frames k)).mSpecMag) (q : ℕ) :
    heard Decoder.audibleExtended.core.analysis (realFrames frames) 0 q = rankHeard rank q := by
  unfold heard rankHeard
  rw [Decoder.audibleExtended_size]
  by_cases hq : q < 36
  · rw [if_pos hq, if_pos hq]
  · rw [if_neg hq, if_neg hq]
    exact (horders (q - 36) _ _ (spectra_tuned (realFrames frames) (q - 36))).tones

/-- Thirty-four searched frames, and the one that a start is reported with. -/
noncomputable def startLog (frames : ℕ → ℕ → Extended) : List (Core.Move Extended × Option ℤ) :=
  (List.range 34).map (fun k => (.frame initial (frames k), none)) ++ [(.frame initial (frames 34), some (-2))]

/-- The audible decoder reports a start with frame 34, the first one with which its window is full. -/
theorem audible_start
    (horders : ∀ k S L, Decoder.Tuned S L → Orders (rank k) L (S.doFFT (realFrames frames k)).mSpecMag)
    (hopens : Opens 36 1 fun i => rankHeard rank (35 + (i + 1) % 36)) : ∃ H H' : History Extended,
      Run (move .AudibleMultiTone) (new Decoder.audibleExtended.core)
        ((List.range 34).map fun k => (.frame initial (realFrames frames k), none)) H ∧
      Run (move .AudibleMultiTone) (new Decoder.audibleExtended.core) (startLog (realFrames frames)) H' ∧
      move .AudibleMultiTone (.frame initial (realFrames frames 34)) H = some (some (-2), H') ∧
      H.core.mDecoding = 0 ∧ (H.core.analysis.AnalyzeStartTokens 1 (realFrames frames 34)).1 = 1 ∧
      H.core.analysis.mSizeBlockCircularBuffer = 36 ∧ H.core.analysis.mnToleranceFrames = 1 := by
  have hn : 0 < Decoder.audibleExtended.core.analysis.mSizeBlockCircularBuffer := by
    rw [Decoder.audibleExtended_size]
    decide
  have hquiet : ∀ j < 34, report 1 (realFrames frames) Decoder.audibleExtended.core.analysis j = 0 :=
    report_short (by decide) hn audibleExtended_fresh 34 (by rw [Decoder.audibleExtended_size]; decide)
  have hstart : report 1 (realFrames frames) Decoder.audibleExtended.core.analysis 34 = 1 := by
    have hfull : OpensAt Decoder.audibleExtended.core.analysis (realFrames frames) (lag 0) 0 34 := by
      unfold OpensAt
      rw [Decoder.audibleExtended_size, Decoder.audibleExtended_tolerance]
      simp only [audible_heard horders]
      exact ⟨by decide, hopens⟩
    rw [report_eq (by decide) hn audibleExtended_fresh hquiet, firstOf, if_pos (decide_eq_true hfull)]
    rfl
  have hsearched := feed_searched (by decide) hn audibleExtended_fresh hquiet
  have hrun : Run (Core.move .AudibleMultiTone) Decoder.audibleExtended.core
      ((List.range 34).map fun k => (.frame initial (realFrames frames k), none)) _ := run_feed rfl rfl 34 hquiet
  obtain ⟨H, hH, hcore⟩ := exists_run (c := .AudibleMultiTone) (H := new Decoder.audibleExtended.core) hrun
  have hanalysis : H.core.analysis = feed 1 (realFrames frames) Decoder.audibleExtended.core.analysis 34 := by
    rw [hcore, show DecoderClass.AudibleMultiTone.lanes = 1 from rfl]
  have h0 : H.core.mDecoding = 0 := by
    rw [hcore]
    rfl
  have hret : (H.core.analysis.AnalyzeStartTokens 1 (realFrames frames 34)).1 = 1 := by
    rw [hanalysis]
    exact hstart
  have hC : ∃ C, Core.step .AudibleMultiTone initial (realFrames frames 34) H.core = (some (-2), C) := by
    have hA : H.core.AnalyzeStartTokens .AudibleMultiTone (realFrames frames 34) =
        (1, (H.core.analysis.AnalyzeStartTokens 1 (realFrames frames 34)).2) := Prod.ext hret rfl
    refine ⟨H.core.begin .AudibleMultiTone 1 (H.core.analysis.AnalyzeStartTokens 1 (realFrames frames 34)).2, ?_⟩
    unfold Core.step
    rw [if_pos h0, hA]
    rfl
  obtain ⟨C, hC⟩ := hC
  obtain ⟨H', hmove⟩ : ∃ H',
      move .AudibleMultiTone (.frame initial (realFrames frames 34)) H = some (some (-2), H') := by
    unfold move
    rw [show Core.move .AudibleMultiTone (.frame initial (realFrames frames 34)) H.core = some (some (-2), C) from
      congrArg some hC]
    exact ⟨_, rfl⟩
  refine ⟨H, H', hH, .call hH hmove, hmove, h0, hret, ?_, ?_⟩
  · rw [hanalysis, hsearched.size, Decoder.audibleExtended_size]
  · rw [hanalysis, hsearched.tolerance, Decoder.audibleExtended_tolerance]

theorem frame_of_startLog {frames : ℕ → ℕ → Extended} {l : List (Core.Move Extended × Option ℤ)} {g : Globals Extended}
    {frame : ℕ → Extended} {r : Option ℤ} (h : l ++ [(.frame g frame, r)] <+: startLog frames) :
    ∃ k, frame = frames k := by
  have hmem : (Core.Move.frame g frame, r) ∈ startLog frames := h.subset (by simp)
  rcases List.mem_append.1 hmem with hmem | hmem
  · obtain ⟨k, -, hk⟩ := List.mem_map.1 hmem
    obtain ⟨hframe, -⟩ := Prod.mk.inj hk
    exact ⟨k, (Core.Move.frame.inj hframe).2.symm⟩
  · obtain ⟨hframe, -⟩ := Prod.mk.inj (List.mem_singleton.1 hmem)
    exact ⟨34, (Core.Move.frame.inj hframe).2⟩

/-- A run changes nothing that the spectra and the energies depend on. -/
theorem run_tuned {log : List (Core.Move Extended × Option ℤ)} {H : History Extended}
    (h : Run (move .AudibleMultiTone) (new Decoder.audibleExtended.core) log H) :
    Decoder.Tuned H.core.analysis.mSpectralAnalysis (H.core.analysis.lane 0) := by
  have hsame := Core.sameArrays_run rfl (run_core h)
  have htuned := Decoder.audibleExtended_tuned
  refine ⟨⟨hsame.mode.trans htuned.transform.mode, hsame.fft.trans htuned.transform.fft, fun i hi => ?_⟩,
    fun i hi => ?_, (hsame.beginBin 0).trans htuned.beginBin, (hsame.endBin 0).trans htuned.endBin⟩
  · rw [hsame.factors]
    exact htuned.transform.window i hi
  · rw [hsame.bins 0]
    exact htuned.bins i hi

end Audible

/-! ## Silence and a chord -/

/-- Three frame lengths of silence, then two pulses in every 2048 samples. -/
noncomputable def lateQuiet (n : ℕ) : ℝ := if n < 6144 then 0 else chord 101 n

noncomputable def quietFrames : ℕ → ℕ → ℝ := FrameBuffer.window 2048 256 (fun _ => 0) lateQuiet

/-- In the first 17 frames all tones tie; in the others the first tone of the second start token is the strongest. -/
def quietRank (k : ℕ) : ℕ → ℕ := if k < 17 then fun _ => 0 else chordRank 101 0

theorem quiet_orders (k : ℕ) (S : SpectralAnalysis Extended) (L : Lane Extended) (h : Decoder.Tuned S L) :
    Orders (quietRank k) L (S.doFFT (realFrames quietFrames k)).mSpecMag := by
  by_cases hk : k < 17
  · rw [quietRank, if_pos hk]
    refine orders_of_silence h fun j hj => ?_
    rw [quietFrames, FrameBuffer.window, if_pos hj, lateQuiet, if_pos (by omega)]
  · have hframe : quietFrames k = FrameBuffer.window 2048 256 (fun _ => 0) (chord 101) k := by
      funext j
      rw [quietFrames, FrameBuffer.window, FrameBuffer.window]
      by_cases hj : j < 2048
      · rw [if_pos hj, if_pos hj, lateQuiet]
        by_cases hlow : k * 256 + j < 6144
        · -- the pulses of the chord before the silence ends lie before this frame
          rw [if_pos hlow, chord, pulse, pulse, if_neg (by omega), if_neg (by omega), add_zero]
        · rw [if_neg hlow]
      · rw [if_neg hj, if_neg hj]
    rw [quietRank, if_neg hk]
    show Orders _ L (S.doFFT fun j => real (quietFrames k j)).mSpecMag
    rw [hframe]
    exact orders_of_sounds h (chord_sounds (by decide) (by decide) (by decide) _ k)

theorem quiet_not_standsOut (k : ℕ) {S : SpectralAnalysis Extended} {L : Lane Extended} (h : Decoder.Tuned S L) :
    ¬ StandsOut L (S.doFFT (realFrames quietFrames k)).mSpecMag := by
  rw [(quiet_orders k S L h).standsOut_iff]
  intro hall
  have h2 := hall 2 (by decide) (by decide)
  unfold quietRank at h2
  split at h2
  · exact absurd h2 (by decide)
  · exact absurd h2 (by decide)

/-- The audible decoder takes silence for the first start token: it reports a start with frame 34, and the first tone of
this token is the strongest in none of the frames. -/
theorem silence_counted : ∃ H : History Extended,
    Run (move .AudibleMultiTone) (new Decoder.audibleExtended.core) (startLog (realFrames quietFrames)) H ∧
      ¬ StartsSound .AudibleMultiTone (new Decoder.audibleExtended.core) (startLog (realFrames quietFrames)) := by
  obtain ⟨H, H', hrun, hrun', hmove, h0, hret, hsize, htolerance⟩ := audible_start quiet_orders (by decide +kernel)
  refine ⟨H', hrun', fun hsound => ?_⟩
  have henough := (hsound _ _ _ _ H H' 0 (List.prefix_refl _) hrun hmove h0 hret).enough
  have hnoted : Noted .AudibleMultiTone Decoder.audibleExtended.core.analysis
      (fun _ mag => ¬ StandsOut (Decoder.audibleExtended.core.analysis.lane 0) mag) H' := by
    refine run_noted rfl (noted_new default default .AudibleMultiTone initial (real 44100) 2048 _) hrun' ?_
    intro l g frame r H1 hl hrun1 _ t _
    obtain ⟨k, rfl⟩ := frame_of_startLog hl
    exact fun hstands => quiet_not_standsOut k (run_tuned hrun1) ((run_sameBins rfl hrun1 0).standsOut.2 hstands)
  have hnone : ((Finset.Ico 0 (H.core.analysis.mSizeBlockCircularBuffer / 2)).filter fun i =>
      0 < H'.stamps 0 (H.core.analysis.blockPos 0 i) ∧
        StandsOut (H.core.analysis.lane 0) (H'.spectrum (H'.stamps 0 (H.core.analysis.blockPos 0 i)))) = ∅ := by
    refine Finset.filter_false_of_mem ?_
    rintro i - ⟨hstamp, hstands⟩
    have hpos : H.core.analysis.blockPos 0 i < Decoder.audibleExtended.core.analysis.mSizeBlockCircularBuffer := by
      rw [Decoder.audibleExtended_size, ← hsize]
      exact Nat.mod_lt _ (by omega)
    rcases hnoted 0 (by decide) _ hpos with ⟨hzero, -⟩ | ⟨-, -, hquiet⟩
    · omega
    · exact hquiet ((run_sameBins rfl hrun 0).standsOut.1 hstands)
  rw [hnone, hsize, htolerance] at henough
  exact absurd henough (by decide)

/-! ## A chord alone -/

/-- The frames of a chord whose strongest tone is the first tone of the first start token. -/
noncomputable def chordFrames : ℕ → ℕ → ℝ := FrameBuffer.window 2048 256 (fun _ => 0) (chord 267)

theorem chord_orders (k : ℕ) (S : SpectralAnalysis Extended) (L : Lane Extended) (h : Decoder.Tuned S L) :
    Orders (chordRank 267 0) L (S.doFFT (realFrames chordFrames k)).mSpecMag :=
  orders_of_sounds h (chord_sounds (by decide) (by decide) (by decide) _ k)

/-- The same with the chord: its energies do not tie, and the start that is reported is of the first start token. -/
theorem silence_no_start_chord : ∃ H H' : History Extended,
    Run (move .AudibleMultiTone) (new Decoder.audibleExtended.core) (startLog (realFrames chordFrames)) H' ∧
      (H.core.analysis.AnalyzeStartTokens 1 (realFrames chordFrames 34)).1 = 1 ∧ FirstTokenSounds H H' 0 := by
  have hopens : Opens 36 1 fun i => rankHeard (fun _ => chordRank 267 0) (35 + (i + 1) % 36) := by decide +kernel
  obtain ⟨H, H', hrun, hrun', hmove, h0, hret, -, -⟩ := audible_start chord_orders hopens
  have hclear : ClearFrames .AudibleMultiTone (new Decoder.audibleExtended.core)
      (startLog (realFrames chordFrames)) := by
    intro l g frame r H1 hl hrun1 _ t ht
    obtain rfl : t = 0 := by
      have ht : t < 1 := ht
      omega
    obtain ⟨k, rfl⟩ := frame_of_startLog hl
    exact Or.inl ((chord_orders k _ _ (run_tuned hrun1)).standsOut_iff.2 (by decide +kernel))
  have hsound := silence_no_start (c := .AudibleMultiTone) rfl default default initial (real 44100) 2048 _ hclear
  exact ⟨H, H', hrun', hret, hsound _ _ _ _ H H' 0 (List.prefix_refl _) hrun hmove h0 hret⟩

end History

end Undertone
