import Undertone.Steady

/-!
# Exact arithmetic with infinities

Over the reals a quotient by zero and the logarithm of zero are numbers, which they are not for the code. Here the
operations have the exceptional results of floating point instead, and no rounding. Where none of them occurs the
results are those over the reals: the window, the spectrum of samples that are numbers (`carries_real`), and what the
constructor of the audible decoder sets up at 44100 Hz (`Decoder.audibleExtended_settings`).
-/

namespace Undertone

open CountedLoop Globals Extended

/-! ## The transform -/

/-- The transform itself, term by term. -/
noncomputable instance : CFFTOoura Extended where
  rdft n a i := if n ≤ i then a i else forUp 0 n (fun j s => s + a j * real (dftFactor n i j)) (real 0)

/-- On numbers the transform and the magnitudes are those over the reals. -/
theorem carries_real : SpectralAnalysis.Carries real where
  add _ _ := rfl
  mul _ _ := rfl
  neg _ := rfl
  abs _ := rfl
  magnitude x y := sqrt_real (add_nonneg (mul_self_nonneg x) (mul_self_nonneg y))
  rdft n a b h i hi := by
    show (if n ≤ i then b i else forUp 0 n (fun j s => s + b j * real (dftFactor n i j)) (real 0)) =
      real (realDFT n a i)
    rw [if_neg (Nat.not_le.2 hi), realDFT_eq a hi]
    refine forUp_rule (P := fun m s => s = real (∑ j ∈ Finset.range m, a j * dftFactor n i j)) (Nat.zero_le n) ?_ ?_
    · rw [Finset.sum_range_zero]
    · rintro m s - hm rfl
      rw [h m hm, real_mul, real_add, Finset.sum_range_succ]

theorem sum_real {data : ℕ → Extended} {x : ℕ → ℝ} {size : ℕ} (h : ∀ i < size, data i = real (x i)) :
    Globals.sum data size = real (Globals.sum x size) := by
  refine forUp_rel (fun (s : Extended) (s' : ℝ) => s = real s') rfl ?_
  rintro i _ s' - hi rfl
  rw [h i hi, real_add]

theorem doFFT_nonneg (S : SpectralAnalysis ℝ) (frame : ℕ → ℝ) (hmode : S.mode = .kEnergySpectrum) :
    ∀ m < S.mSpecSize, 0 ≤ (S.doFFT frame).mSpecMag m := by
  intro m hm
  have hm : m < S.mFftSize / 2 + 1 := hm
  simp only [SpectralAnalysis.doFFT, hmode]
  by_cases hlast : m = S.mFftSize / 2
  · rw [hlast, Function.update_self]
    exact mul_self_nonneg _
  · rw [Function.update_of_ne hlast]
    by_cases hfirst : m = 0
    · rw [hfirst, Function.update_self]
      exact mul_self_nonneg _
    · rw [Function.update_of_ne hfirst, forUp_fill]
      refine le_of_le_of_eq ?_ (if_pos ⟨Nat.one_le_iff_ne_zero.2 hfirst, by omega⟩).symm
      exact add_nonneg (mul_self_nonneg _) (mul_self_nonneg _)

/-! ## The constructor -/

theorem windowAngle_real (i : ℕ) :
    (SpectralAnalysis.windowAngle 2048 i : Extended) = real (SpectralAnalysis.windowAngle 2048 i) := by
  have hsize : (ofInt (2048 : ℕ) : ℝ) - Floats.lit 1 ≠ 0 := by
    rw [ofInt_eq, lit_eq]
    norm_num
  have hden : (ofInt (2048 : ℕ) : Extended) - Floats.lit 1 = real (ofInt (2048 : ℕ) - Floats.lit 1) := real_sub
  have hquot : (two_pi : Extended) / (ofInt (2048 : ℕ) - Floats.lit 1) =
      real (two_pi / (ofInt (2048 : ℕ) - Floats.lit 1)) := by
    rw [hden]
    exact real_div hsize
  unfold SpectralAnalysis.windowAngle
  rw [hquot]
  rfl

theorem blackmanHarris74_real (i : ℕ) :
    (SpectralAnalysis.blackmanHarris74 2048 i : Extended) = real (SpectralAnalysis.blackmanHarris74 2048 i) := by
  unfold SpectralAnalysis.blackmanHarris74
  rw [windowAngle_real]
  generalize (SpectralAnalysis.windowAngle 2048 i : ℝ) = x
  show real _ - real _ * real (Real.cos x) - real _ * real (Real.cos (x * _)) - real _ * real (Real.cos (x * _)) = _
  simp only [real_mul, real_sub]
  rfl

theorem window_real (mem : ℕ → ℝ) (mem' : ℕ → Extended) {i : ℕ} (hi : i < 2048) :
    SpectralAnalysis.generateBlackmanHarris74Window mem' 2048 i =
      real (SpectralAnalysis.generateBlackmanHarris74Window mem 2048 i) := by
  have hsum : forUp 0 2048 (fun i fSum => fSum + SpectralAnalysis.blackmanHarris74 2048 i) (Floats.lit 0 : Extended) =
      real (forUp 0 2048 (fun i fSum => fSum + SpectralAnalysis.blackmanHarris74 2048 i) (Floats.lit 0)) := by
    refine forUp_rel (fun (x : Extended) (y : ℝ) => x = real y) rfl ?_
    rintro j _ y - - rfl
    rw [blackmanHarris74_real, real_add]
  have h2 : (Floats.lit 2 : ℝ) ≠ 0 := by
    rw [lit_eq]
    norm_num
  have hhalf := real_div (x := forUp 0 2048 (fun i fSum => fSum + SpectralAnalysis.blackmanHarris74 2048 i)
    (Floats.lit 0 : ℝ)) h2
  rw [SpectralAnalysis.window_factor mem hi, SpectralAnalysis.window_factor mem' hi, hsum, blackmanHarris74_real]
  refine (congrArg (real _ / ·) hhalf).trans (real_div (div_ne_zero window_sum_pos.ne' h2))

theorem toneGrid_real (first distance : ℝ) (idx : ℤ) {samplingRate : ℝ} (hrate : samplingRate ≠ 0) {W : ℕ}
    (hW : 0 < W) : toneGrid (real first) (real distance) idx (real samplingRate) W =
      real (toneGrid first distance idx samplingRate W) := by
  have hWr : (ofInt (W : ℕ) : ℝ) ≠ 0 := by
    rw [ofInt_eq, Int.cast_natCast]
    exact_mod_cast hW.ne'
  have hbin : (real samplingRate : Extended) / ofInt (W : ℕ) = real (samplingRate / ofInt (W : ℕ)) := real_div hWr
  have hne : samplingRate / ofInt (W : ℕ) ≠ 0 := div_ne_zero hrate hWr
  simp only [toneGrid]
  rw [hbin, real_div hne, real_div hne]
  rfl

namespace Decoder

/-- The audible decoder before its first call. -/
noncomputable def audibleExtended : Decoder Extended :=
  Decoder.new default default .AudibleMultiTone initial (real 44100) 2048

theorem hopSize_real (samplingRate : ℝ) : hopSize (real samplingRate) = hopSize samplingRate := by
  have heq : ∀ q : ℚ, Floats.eq (real samplingRate) (Floats.lit q) = Floats.eq samplingRate (Floats.lit q) := by
    intro q
    refine decide_eq_decide.2 ?_
    show real samplingRate = real (q : ℝ) ∧ _ ↔ samplingRate = (q : ℝ)
    simp
  unfold hopSize
  rw [heq, heq, heq]

theorem audibleExtended_size : audibleExtended.core.analysis.mSizeBlockCircularBuffer = 36 := by
  refine Eq.trans ?_ audible_size
  have hhop : hopSize (real 44100) = 256 := (hopSize_real 44100).trans hopSize_44100
  have hlen : real 44100 * durToken * Floats.lit 2 / ofInt (256 : ℕ) + Floats.lit 0.5 =
      real (44100 * durToken * Floats.lit 2 / ofInt (256 : ℕ) + Floats.lit 0.5) := by
    have hne : (ofInt (256 : ℕ) : ℝ) ≠ 0 := by
      rw [ofInt_eq]
      norm_num
    exact congrArg (· + Floats.lit 0.5) (real_div hne)
  show (Doubles.trunc
      (real 44100 * durToken * Floats.lit 2 / ofInt (hopSize (real 44100) : ℕ) + Floats.lit 0.5)).toNat =
    (truncate ((44100 : ℝ) * durToken * Floats.lit 2 / ofInt (hopSize (44100 : ℝ) : ℕ) + Floats.lit 0.5)).toNat
  rw [hhop, hopSize_44100, hlen]
  rfl

/-- The transform of the audible decoder and what it listens to, at 44100 Hz. -/
structure Tuned (S : SpectralAnalysis Extended) (L : Lane Extended) : Prop where
  transform : SpectralAnalysis.SameTransform real audible.core.analysis.mSpectralAnalysis S
  bins : ∀ i < 9, L.mFreqsBins i = audibleBin 0 i
  beginBin : L.mBeginBin = 153
  endBin : L.mEndBin = 433

theorem audibleExtended_tuned :
    Tuned audibleExtended.core.analysis.mSpectralAnalysis (audibleExtended.core.analysis.lane 0) := by
  have hbin : ∀ idx : ℕ, Globals.round (getToneFromIdxAudibleMultiTone idx (real 44100) 2048 *
      (ofInt (2048 : ℕ) / real 44100)) = audibleBin 0 idx := by
    intro idx
    have hgrid : getToneFromIdxAudibleMultiTone idx (real 44100) 2048 =
        real (getToneFromIdxAudibleMultiTone idx (44100 : ℝ) 2048) :=
      toneGrid_real _ _ idx (by norm_num) (by decide)
    have hscale : (ofInt (2048 : ℕ) : Extended) / real 44100 = real (ofInt (2048 : ℕ) / 44100) := real_div (by norm_num)
    rw [hgrid, hscale]
    exact round_audible idx
  obtain ⟨hbins, hbegin, hend⟩ := newAnalysis_bins (default : Decoder Extended).core.analysis
    (c := .AudibleMultiTone) rfl (initial.init 2048) (real 44100) 2048 (t := 0) (by decide)
  exact ⟨⟨rfl, rfl, fun i hi => window_real _ _ hi⟩, fun i hi => (hbins i hi).trans (hbin i), hbegin.trans (hbin 0),
    hend.trans (hbin 8)⟩

theorem audibleExtended_tolerance : audibleExtended.core.analysis.mnToleranceFrames = 1 := by
  refine Eq.trans ?_ audible_settings.tolerance
  show truncate (((audibleExtended.core.analysis.mSizeBlockCircularBuffer / 2 : ℚ) : ℝ) * ((0.05 : ℚ) : ℝ) +
      ((0.5 : ℚ) : ℝ)) = truncate (((audible.core.analysis.mSizeBlockCircularBuffer / 2 : ℚ) : ℝ) * ((0.05 : ℚ) : ℝ) +
        ((0.5 : ℚ) : ℝ))
  rw [audibleExtended_size, audible_size]

end Decoder

end Undertone
