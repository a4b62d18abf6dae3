import Undertone.Exact
import Undertone.Lib.Exceptions
import Undertone.SameMessage
import Undertone.Vote

/-!
# What a decoder hears in a frame

In a search a decoder notes the two strongest tones of a frame (`note`); in a message a frame votes for the two tones
that stand out of the others in the phase of its block (`Shows`). Both are matters of the samples of the frame and of
the settings of the decoder, whatever its memory holds (`note_same`, `spectrum_same`). A block most of whose frames
show the tones of a token has the value of this token, whatever the other frames sound like (`token_of_most`).
-/

namespace Undertone

open CountedLoop Globals

namespace Analysis

open SpectralAnalysis Checked Core

/-! ## Notes -/

section Notes

variable {F D : Type} [Doubles D] [Floats F D] [CFFTOoura F] {A0 A : Analysis F}

/-- What a search notes of a frame. -/
def note (A : Analysis F) (frame : ℕ → F) : ℤ × ℤ :=
  startTones (A.lane 0) (A.mSpectralAnalysis.doFFT frame).mSpecMag

/-- A note counts toward the first start token. -/
def First (p : ℤ × ℤ) : Prop := p.1 = idxTonesFrontDoorToken1.1

/-- A note counts toward the second start token. -/
def Second (p : ℤ × ℤ) : Prop := p.1 = idxTonesFrontDoorToken2.1 ∨ p.2 = idxTonesFrontDoorToken2.1

instance (p : ℤ × ℤ) : Decidable (First p) := inferInstanceAs (Decidable (_ = _))

instance (p : ℤ × ℤ) : Decidable (Second p) := inferInstanceAs (Decidable (_ ∨ _))

omit [CFFTOoura F] in
/-- The ranking of the tones reads the bins of the spectrum and no others. -/
theorem startTones_cells {L : Lane F} {size : ℕ} (hin : InSpectrum size L L.mFreqsBins) {mag mag' : ℕ → F}
    (h : ∀ bin < size, mag bin = mag' bin) : startTones L mag = startTones L mag' := by
  obtain ⟨hregion, htones⟩ := inSpectrum_iff.1 hin
  have hcell : ∀ bin : ℤ, 0 ≤ bin → bin < size → cell mag bin = cell mag' bin := fun bin h0 hbin => h _ (by omega)
  have henergy : forUp 0 (L.mEndBin - L.mBeginBin + 1).toNat (fun i energyBlock =>
      energyBlock + cell mag (L.mBeginBin + i)) (Floats.lit 0) =
      forUp 0 (L.mEndBin - L.mBeginBin + 1).toNat (fun i energyBlock =>
        energyBlock + cell mag' (L.mBeginBin + i)) (Floats.lit 0) := by
    refine forUp_congr (fun i s _ hi => ?_) _
    obtain ⟨h0, hlt⟩ := hregion (L.mBeginBin + i) (by omega) (by omega)
    rw [hcell _ h0 hlt]
  have hratio : ∀ i < mNumTones, startRatio L mag i = startRatio L mag' i := by
    intro i hi
    obtain ⟨h1, hlt⟩ := htones i hi
    have hsum : Globals.sum (fun n : ℕ => cell mag (L.mFreqsBins i - mBinWidth + n)) mSizeTokenBinAnal =
        Globals.sum (fun n : ℕ => cell mag' (L.mFreqsBins i - mBinWidth + n)) mSizeTokenBinAnal := by
      refine forUp_congr (fun n s _ hn => ?_) _
      have hn : n < 3 := hn
      have hwidth : ((mBinWidth : ℕ) : ℤ) = 1 := rfl
      exact congrArg (s + ·) (hcell _ (by omega) (by omega))
    simp only [startRatio, hsum, henergy]
  have hsort : (sortTones Floats.lt mNumTones (startRatio L mag)).2 =
      (sortTones Floats.lt mNumTones (startRatio L mag')).2 :=
    sortTones_rank fun i hi j hj => by rw [hratio i hi, hratio j hj]
  simp only [startTones, hsort]

omit [Doubles D] in
/-- The spectrum of a frame does not depend on the memory of the transform. -/
theorem spectrum_same (hlocal : RdftLocal F) (h2 : 2 ≤ A0.mSpectralAnalysis.mFftSize) (hsame : SameArrays A0 A)
    (frame : ℕ → F) : ∀ bin < A0.mSpectralAnalysis.mSpecSize,
      (A.mSpectralAnalysis.doFFT frame).mSpecMag bin = (A0.mSpectralAnalysis.doFFT frame).mSpecMag bin := by
  have htransform : SameTransform id A0.mSpectralAnalysis A.mSpectralAnalysis :=
    ⟨hsame.mode, hsame.fft, fun i _ => by rw [hsame.factors]; rfl⟩
  exact htransform.spectrum (carries_id hlocal) h2 fun _ _ => rfl

/-- Nor does its note. -/
theorem note_same (hlocal : RdftLocal F) (h2 : 2 ≤ A0.mSpectralAnalysis.mFftSize)
    (hin : InSpectrum A0.mSpectralAnalysis.mSpecSize (A0.lane 0) (A0.lane 0).mFreqsBins) (hsame : SameArrays A0 A)
    (frame : ℕ → F) : note A frame = note A0 frame := by
  have hlanes : startTones (A.lane 0) (A.mSpectralAnalysis.doFFT frame).mSpecMag =
      startTones (A0.lane 0) (A.mSpectralAnalysis.doFFT frame).mSpecMag :=
    startTones_congr (fun i _ => by rw [hsame.bins 0]) (hsame.beginBin 0) (hsame.endBin 0) _
  exact hlanes.trans (startTones_cells hin (spectrum_same hlocal h2 hsame frame))

end Notes

/-! ## Votes -/

/-- The magnitude of tone `i` in the phase of the `p`-th block, in a spectrum. -/
noncomputable def level (g : Globals ℝ) (mode : ℤ) (p : ℕ) (L : Lane ℝ) (mag : ℕ → ℝ) (i : ℕ) : ℝ :=
  Globals.sum (fun n : ℕ => cell mag (evalToneBin g mode p L i - mBinWidth + n)) mSizeTokenBinAnal

/-- The magnitude in the frequency region of the alphabet. -/
noncomputable def region (L : Lane ℝ) (mag : ℕ → ℝ) : ℝ :=
  forUp 0 (L.mEndBin - L.mBeginBin + 1).toNat (fun i s => s + cell mag (L.mBeginBin + i)) 0

/-- In this frame the tones `a` and `b` stand out of the others, in the phase of the `p`-th block. -/
structure Shows (g : Globals ℝ) (mode : ℤ) (p : ℕ) (A : Analysis ℝ) (a b : ℕ) (frame : ℕ → ℝ) : Prop where
  region : 0 < region (A.lane 0) (A.mSpectralAnalysis.doFFT frame).mSpecMag
  heard : ∀ i < mNumTones, 0 < level g mode p (A.lane 0) (A.mSpectralAnalysis.doFFT frame).mSpecMag i
  first : ∀ i < mNumTones, i ≠ a → i ≠ b →
    level g mode p (A.lane 0) (A.mSpectralAnalysis.doFFT frame).mSpecMag i <
      level g mode p (A.lane 0) (A.mSpectralAnalysis.doFFT frame).mSpecMag a
  second : ∀ i < mNumTones, i ≠ a → i ≠ b →
    level g mode p (A.lane 0) (A.mSpectralAnalysis.doFFT frame).mSpecMag i <
      level g mode p (A.lane 0) (A.mSpectralAnalysis.doFFT frame).mSpecMag b

/-- Two indices whose values are ahead of all others are the two that the searches find, in any order of values. -/
theorem searches_pair {α : Type*} [LinearOrder α] {gt : α → α → Bool} (hgt : ∀ x y, gt x y = true ↔ y < x)
    {values : ℕ → α} {n a b : ℕ} (hn : 2 ≤ n) (ha : a < n) (hb : b < n) (hab : a ≠ b)
    (hahead : ∀ c < n, c ≠ a → c ≠ b → values c < values a ∧ values c < values b) :
    (maxValueIdx gt values n, secondValueIdx gt values n) = (a, b) ∨
      (maxValueIdx gt values n, secondValueIdx gt values n) = (b, a) := by
  have hmaxlt := maxValueIdx_lt gt values (show 0 < n by omega)
  obtain ⟨hsecondlt, hother⟩ := secondValueIdx_spec gt values hn
  have hmax : maxValueIdx gt values n = a ∨ maxValueIdx gt values n = b := by
    by_contra hne
    rw [not_or] at hne
    exact absurd (hahead _ hmaxlt hne.1 hne.2).1 (not_lt.2 (le_maxValueIdx hgt values ha))
  have hsecond : ∀ c < n, c ≠ maxValueIdx gt values n → c = a ∨ c = b →
      secondValueIdx gt values n = a ∨ secondValueIdx gt values n = b := by
    intro c hc hne hcab
    by_contra hne'
    rw [not_or] at hne'
    have hlt := hahead _ hsecondlt hne'.1 hne'.2
    have hle := le_secondValueIdx hgt values hc hne
    rcases hcab with rfl | rfl
    · exact absurd hlt.1 (not_lt.2 hle)
    · exact absurd hlt.2 (not_lt.2 hle)
  rcases hmax with hmax | hmax
  · left
    rcases hsecond b hb (by omega) (Or.inr rfl) with h | h
    · exact absurd (h.trans hmax.symm) hother
    · rw [hmax, h]
  · right
    rcases hsecond a ha (by omega) (Or.inl rfl) with h | h
    · rw [hmax, h]
    · exact absurd (h.trans hmax.symm) hother

section Block

variable {A0 A : Analysis ℝ} {g : Globals ℝ} {mode : ℤ} {p : ℕ} {frames : ℕ → ℕ → ℝ}

/-- The block at the read position holds the spectra of these frames. -/
def BlockOf (A0 A : Analysis ℝ) (frames : ℕ → ℕ → ℝ) : Prop :=
  ∀ j < A.mSizeBlockCircularBuffer / 2, ∀ bin < A0.mSpectralAnalysis.mSpecSize,
    A.mBlockSpecMag (A.blockPos 0 j) bin = (A0.mSpectralAnalysis.doFFT (frames j)).mSpecMag bin

/-- The tones of a frame of the block. -/
theorem BlockOf.toneSum (h : BlockOf A0 A frames) (hsame : SameArrays A0 A)
    (hin : InSpectrum A0.mSpectralAnalysis.mSpecSize (A0.lane 0) (evalToneBin g mode p (A0.lane 0))) {j : ℕ}
    (hj : j < A.mSizeBlockCircularBuffer / 2) {i : ℕ} (hi : i < mNumTones) :
    (toneSum g mode p A 0 j i : ℝ) =
      level g mode p (A0.lane 0) (A0.mSpectralAnalysis.doFFT (frames j)).mSpecMag i := by
  have hbin : evalToneBin g mode p (A.lane 0) i = evalToneBin g mode p (A0.lane 0) i := by
    unfold evalToneBin
    rw [hsame.bins]
  obtain ⟨h1, hlt⟩ := (inSpectrum_iff.1 hin).2 i hi
  unfold Analysis.toneSum level
  rw [hbin]
  refine forUp_congr (fun n s _ hn => ?_) _
  have hn : n < 3 := hn
  have hwidth : ((mBinWidth : ℕ) : ℤ) = 1 := rfl
  exact congrArg (s + ·) (h j hj _ (by omega))

theorem region_nonneg {L : Lane ℝ} {mag : ℕ → ℝ} (h : ∀ i < (L.mEndBin - L.mBeginBin + 1).toNat,
    0 ≤ cell mag (L.mBeginBin + i)) : 0 ≤ region L mag := by
  refine forUp_rule (P := fun _ s => 0 ≤ s) (Nat.zero_le _) le_rfl fun i s _ hi hs => ?_
  exact add_nonneg hs (h i hi)

/-- The energy mean of a block with a frame that is not silent. -/
theorem BlockOf.energy_pos (h : BlockOf A0 A frames) (hsame : SameArrays A0 A)
    (hmode : A0.mSpectralAnalysis.mode = .kEnergySpectrum)
    (hin : InSpectrum A0.mSpectralAnalysis.mSpecSize (A0.lane 0) (A0.lane 0).mFreqsBins) {j : ℕ}
    (hj : j < A.mSizeBlockCircularBuffer / 2)
    (hregion : 0 < region (A0.lane 0) (A0.mSpectralAnalysis.doFFT (frames j)).mSpecMag) :
    (0 : ℝ) < A.energyBlock 0 := by
  have hinregion := (inSpectrum_iff.1 hin).1
  set L := A0.lane 0 with hL
  have hwidth : 0 < (L.mEndBin - L.mBeginBin + 1).toNat := by
    by_contra h0
    obtain h0 : (L.mEndBin - L.mBeginBin + 1).toNat = 0 := by omega
    unfold region at hregion
    rw [h0, forUp_self] at hregion
    exact absurd hregion (lt_irrefl 0)
  have hframe : ∀ k < A.mSizeBlockCircularBuffer / 2, ∀ e : ℝ,
      forUp 0 (L.mEndBin - L.mBeginBin + 1).toNat (fun i e =>
        e + Floats.toDouble (cell (A.mBlockSpecMag (A.blockPos 0 k)) (L.mBeginBin + i))) e =
      e + region L (A0.mSpectralAnalysis.doFFT (frames k)).mSpecMag := by
    intro k hk e
    unfold region
    rw [forUp_add (Nat.zero_le _), forUp_add (Nat.zero_le _), zero_add]
    refine congrArg (e + ·) (Finset.sum_congr rfl fun i hi => ?_)
    have hi := (Finset.mem_Ico.1 hi).2
    obtain ⟨h0, hlt⟩ := hinregion (L.mBeginBin + i) (by omega) (by omega)
    exact h k hk _ (by omega)
  have hnonneg : ∀ k, 0 ≤ region L (A0.mSpectralAnalysis.doFFT (frames k)).mSpecMag := by
    intro k
    refine region_nonneg fun i hi => ?_
    obtain ⟨h0, hlt⟩ := hinregion (L.mBeginBin + i) (by omega) (by omega)
    exact doFFT_nonneg _ _ hmode _ (by omega)
  have hsum : 0 < forUp 0 (A.mSizeBlockCircularBuffer / 2) (fun k e =>
      forUp 0 (L.mEndBin - L.mBeginBin + 1).toNat (fun i e =>
        e + Floats.toDouble (cell (A.mBlockSpecMag (A.blockPos 0 k)) (L.mBeginBin + i))) e) (Doubles.lit 0 : ℝ) := by
    have hloop := forUp_rule (a := 0) (b := A.mSizeBlockCircularBuffer / 2) (s := (Doubles.lit 0 : ℝ))
      (f := fun k e => forUp 0 (L.mEndBin - L.mBeginBin + 1).toNat (fun i e =>
        e + Floats.toDouble (cell (A.mBlockSpecMag (A.blockPos 0 k)) (L.mBeginBin + i))) e)
      (P := fun k e => 0 ≤ e ∧ (j < k → 0 < e)) (Nat.zero_le _)
      ⟨le_of_eq (Rat.cast_zero (α := ℝ)).symm, fun h => absurd h (Nat.not_lt_zero j)⟩ ?_
    · exact hloop.2 hj
    · rintro k e - hk ⟨he, hpos⟩
      rw [hframe k hk]
      refine ⟨add_nonneg he (hnonneg k), fun hjk => ?_⟩
      rcases Nat.lt_succ_iff_lt_or_eq.1 hjk with hlt | rfl
      · exact add_pos_of_pos_of_nonneg (hpos hlt) (hnonneg k)
      · exact add_pos_of_nonneg_of_pos he hregion
  simp only [energyBlock, hsame.beginBin 0, hsame.endBin 0]
  refine div_pos hsum (mul_pos ?_ ?_)
  · show (0 : ℝ) < ((L.mEndBin - L.mBeginBin + 1 : ℤ) : ℚ)
    have hpos : (0 : ℤ) < L.mEndBin - L.mBeginBin + 1 := by omega
    exact_mod_cast hpos
  · show (0 : ℝ) < ((A.mSizeBlockCircularBuffer / 2 : ℕ) : ℚ)
    have hpos : 0 < A.mSizeBlockCircularBuffer / 2 := by omega
    exact_mod_cast hpos

/-- A frame of a block that shows two tones votes for them. -/
theorem BlockOf.strongest (h : BlockOf A0 A frames) (hsame : SameArrays A0 A)
    (hmode : A0.mSpectralAnalysis.mode = .kEnergySpectrum) (hin : LaneInSpectrum A0.mSpectralAnalysis.mSpecSize g mode
      (A0.lane 0)) {a b : ℕ} (ha : a < mNumTones) (hb : b < mNumTones) (hab : a ≠ b) {j : ℕ}
    (hj : j < A.mSizeBlockCircularBuffer / 2) (hshows : Shows g mode p A0 a b (frames j)) :
    strongestTones g mode p A 0 j = (a, b) ∨ strongestTones g mode p A 0 j = (b, a) := by
  have henergy := h.energy_pos hsame hmode hin.1 hj hshows.region
  have hratio : ∀ i < mNumTones, toneRatio g mode p A 0 j i = 20 * Real.logb 10
      (level g mode p (A0.lane 0) (A0.mSpectralAnalysis.doFFT (frames j)).mSpecMag i / 3 / A.energyBlock 0) := by
    intro i hi
    unfold toneRatio
    rw [h.toneSum hsame (hin.2 p) hj hi]
    show ((20 : ℚ) : ℝ) * Real.logb 10 (_ / ((3 : ℚ) : ℝ) / A.energyBlock 0) = _
    norm_num
  refine searches_pair (fun x y : ℝ => decide_eq_true_iff) (by decide) ha hb hab fun c hc hca hcb => ?_
  rw [hratio c hc, hratio a ha, hratio b hb, decibels_lt (hshows.heard c hc) (hshows.heard a ha) henergy,
    decibels_lt (hshows.heard c hc) (hshows.heard b hb) henergy]
  exact ⟨hshows.first c hc hca hcb, hshows.second c hc hca hcb⟩

/-- A block most of whose frames show two tones has the value of their token. -/
theorem BlockOf.token_of_most (h : BlockOf A0 A frames) (hsame : SameArrays A0 A)
    (hmode : A0.mSpectralAnalysis.mode = .kEnergySpectrum) (hin : LaneInSpectrum A0.mSpectralAnalysis.mSpecSize g mode
      (A0.lane 0)) {a b : ℕ} (ha : a < mNumTones) (hb : b < mNumTones) (hab : a ≠ b) {q : ℕ}
    (hshows : AllBut q (fun j => Shows g mode p A0 a b (frames j)) 0 (A.mSizeBlockCircularBuffer / 2))
    (hq : 2 * q < A.mSizeBlockCircularBuffer / 2) :
    votedTones g mode p A 0 = (a, b) ∨ votedTones g mode p A 0 = (b, a) := by
  have hagree : AllBut q (fun j => frameTones mNumTones (toneRatio g mode p A 0) j = (a, b) ∨
      frameTones mNumTones (toneRatio g mode p A 0) j = (b, a)) 0 (A.mSizeBlockCircularBuffer / 2) :=
    hshows.mono (le_refl q) fun j _ hj hshow => h.strongest hsame hmode hin ha hb hab hj hshow
  have hcount := hagree.count
  rw [Nat.Ico_zero_eq_range] at hcount
  rw [votedTones_elect]
  refine elect_majority (by decide) hab ?_
  unfold agreeing
  omega

end Block

end Analysis

end Undertone
