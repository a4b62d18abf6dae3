import Undertone.Spectral

/-!
# Spectra in other memory and in other arithmetic

What the spectrum of a frame depends on: the samples and the factors of the window, as far as the frame goes, and
neither the memory that the analysis works in (`sameTransform_new`) nor, up to a map between them that keeps the
operations, the numbers it computes with (`SameTransform.spectrum`).
-/

namespace Undertone

open CountedLoop

namespace SpectralAnalysis

variable {F D F' D' : Type} [Floats F D] [CFFTOoura F] [Floats F' D'] [CFFTOoura F']

/-! ## The window -/

omit [CFFTOoura F] in
/-- The window before it is scaled, and the sum of its terms. -/
theorem window_terms (mem : ℕ → F) (size : ℕ) :
    forUp 0 size (fun i (st : (ℕ → F) × F) => (Function.update st.1 i (blackmanHarris74 size i),
        st.2 + blackmanHarris74 size i)) (mem, Floats.lit 0) =
      (fun k => if k < size then blackmanHarris74 size k else mem k,
        forUp 0 size (fun i fSum => fSum + blackmanHarris74 size i) (Floats.lit 0)) := by
  refine forUp_rule (P := fun n st => st = (fun k => if k < n then blackmanHarris74 size k else mem k,
    forUp 0 n (fun i fSum => fSum + blackmanHarris74 size i) (Floats.lit 0))) (Nat.zero_le _) ?_ ?_
  · simp only [forUp_self, Nat.not_lt_zero, if_false]
  · rintro n st - _ rfl
    rw [forUp_succ (Nat.zero_le n)]
    refine Prod.ext (funext fun k => ?_) rfl
    by_cases hk : k = n
    · subst hk
      exact (Function.update_self ..).trans (if_pos (Nat.lt_succ_self k)).symm
    · have hiff : k < n + 1 ↔ k < n := by omega
      refine (Function.update_of_ne hk ..).trans ?_
      simp only [hiff]

omit [CFFTOoura F] in
/-- The factors of the window. -/
theorem window_factor (mem : ℕ → F) {size i : ℕ} (hi : i < size) :
    generateBlackmanHarris74Window mem size i = blackmanHarris74 size i /
      (forUp 0 size (fun i fSum => fSum + blackmanHarris74 size i) (Floats.lit 0) / Floats.lit 2) := by
  unfold generateBlackmanHarris74Window
  rw [window_terms]
  simp only
  rw [forUp_map 0 size (fun _ x => x /
    (forUp 0 size (fun i fSum => fSum + blackmanHarris74 size i) (Floats.lit 0) / Floats.lit 2))]
  simp only [Nat.zero_le, true_and, if_pos hi]

/-! ## The transform -/

/-- A map between two arithmetics that keeps the operations of the analysis. -/
structure Carries (φ : F → F') : Prop where
  add : ∀ x y, φ x + φ y = φ (x + y)
  mul : ∀ x y, φ x * φ y = φ (x * y)
  neg : ∀ x, -φ x = φ (-x)
  abs : ∀ x, Floats.abs (φ x) = φ (Floats.abs x)
  magnitude : ∀ x y, Floats.sqrt (φ (x * x + y * y)) = φ (Floats.sqrt (x * x + y * y))
  rdft : ∀ (n : ℕ) (a : ℕ → F) (b : ℕ → F'), (∀ i < n, b i = φ (a i)) →
    ∀ i < n, CFFTOoura.rdft n b i = φ (CFFTOoura.rdft n a i)

/-- Two analyses with the same settings, in different memory and arithmetic. -/
structure SameTransform (φ : F → F') (S : SpectralAnalysis F) (S' : SpectralAnalysis F') : Prop where
  mode : S'.mode = S.mode
  fft : S'.mFftSize = S.mFftSize
  window : ∀ i < S.mFftSize, S'.mWindow i = φ (S.mWindow i)

section Same

variable {φ : F → F'} {S : SpectralAnalysis F} {S' : SpectralAnalysis F'} {buffer : ℕ → F} {buffer' : ℕ → F'}

omit [CFFTOoura F] [CFFTOoura F'] in
theorem SameTransform.specSize (h : SameTransform φ S S') : S'.mSpecSize = S.mSpecSize := by
  unfold mSpecSize
  rw [h.fft]

omit [CFFTOoura F] in
/-- The window does not depend on the memory that it is written to. -/
theorem sameTransform_new (mem mem' : SpectralAnalysis F) (mode : Mode) (size hop : ℕ) :
    SameTransform id (new mem mode size size hop) (new mem' mode size size hop) :=
  ⟨rfl, rfl, fun _ hi => (window_factor mem'.mWindow hi).trans (window_factor mem.mWindow hi).symm⟩

/-- The samples of the frame, windowed and transformed. -/
theorem SameTransform.transform (h : SameTransform φ S S') (hφ : Carries φ)
    (hbuffer : ∀ i < S.mFftSize, buffer' i = φ (buffer i)) :
    ∀ i < S.mFftSize / 2 * 2, S'.transform buffer' i = φ (S.transform buffer i) := by
  unfold SpectralAnalysis.transform
  rw [h.fft]
  refine forUp_rel (fun (a : ℕ → F') (b : ℕ → F) => ∀ i < S.mFftSize / 2 * 2, a i = φ (b i))
    (hφ.rdft _ _ _ fun i hi => ?_) ?_
  · rw [forUp_fill 0 (S.mFftSize + 1) (fun i => buffer' i * S'.mWindow i),
      forUp_fill 0 (S.mFftSize + 1) (fun i => buffer i * S.mWindow i)]
    simp only [if_pos (show 0 ≤ i ∧ i < S.mFftSize + 1 by omega)]
    rw [hbuffer i (by omega), h.window i (by omega), hφ.mul]
  · intro j a b _ hj hab i hi
    by_cases hij : i = j * 2 + 1
    · subst hij
      rw [Function.update_self, Function.update_self, hab _ hi, hφ.neg]
    · rw [Function.update_of_ne hij, Function.update_of_ne hij, hab i hi]

omit [CFFTOoura F] in
/-- A frame changes nothing that the next one depends on. -/
theorem SameTransform.doFFT (h : SameTransform φ S S') : SameTransform φ S (S'.doFFT buffer') :=
  ⟨h.mode, h.fft, h.window⟩

/-- They give a frame the same spectrum. -/
theorem SameTransform.spectrum (h : SameTransform φ S S') (hφ : Carries φ) (h2 : 2 ≤ S.mFftSize)
    (hbuffer : ∀ i < S.mFftSize, buffer' i = φ (buffer i)) :
    ∀ bin < S.mSpecSize, (S'.doFFT buffer').mSpecMag bin = φ ((S.doFFT buffer).mSpecMag bin) := by
  intro bin hbin
  have hbin : bin < S.mFftSize / 2 + 1 := hbin
  have hcells := h.transform hφ hbuffer
  unfold SpectralAnalysis.doFFT
  rw [h.fft, h.mode]
  generalize S'.transform buffer' = a' at hcells
  generalize S.transform buffer = a at hcells
  have h0 : a' 0 = φ (a 0) := hcells 0 (by omega)
  have h1 : a' 1 = φ (a 1) := hcells 1 (by omega)
  have hmags : ∀ (value : F → F → F) (value' : F' → F' → F') (x y : F) (mag : ℕ → F) (mag' : ℕ → F'),
      (∀ x y, value' (φ x) (φ y) = φ (value x y)) →
      Function.update (Function.update (forUp 1 (S.mFftSize / 2) (fun i mag =>
          Function.update mag i (value' (a' (2 * i)) (a' (2 * i + 1)))) mag') 0 (φ x)) (S.mFftSize / 2) (φ y) bin =
        φ (Function.update (Function.update (forUp 1 (S.mFftSize / 2) (fun i mag =>
          Function.update mag i (value (a (2 * i)) (a (2 * i + 1)))) mag) 0 x) (S.mFftSize / 2) y bin) := by
    intro value value' x y mag mag' hvalue
    rw [forUp_fill 1 (S.mFftSize / 2) (fun i => value' (a' (2 * i)) (a' (2 * i + 1))),
      forUp_fill 1 (S.mFftSize / 2) (fun i => value (a (2 * i)) (a (2 * i + 1)))]
    by_cases hlast : bin = S.mFftSize / 2
    · rw [hlast, Function.update_self, Function.update_self]
    · rw [Function.update_of_ne hlast, Function.update_of_ne hlast]
      by_cases hfirst : bin = 0
      · rw [hfirst, Function.update_self, Function.update_self]
      · rw [Function.update_of_ne hfirst, Function.update_of_ne hfirst]
        simp only [if_pos (show 1 ≤ bin ∧ bin < S.mFftSize / 2 by omega)]
        rw [hcells (2 * bin) (by omega), hcells (2 * bin + 1) (by omega), hvalue]
  cases hmode : S.mode with
  | kMagnitudeSpectrum =>
    simp only [h0, h1, hφ.abs]
    refine hmags (fun real imag => Floats.sqrt (real * real + imag * imag))
      (fun real imag => Floats.sqrt (real * real + imag * imag)) _ _ _ _ fun x y => ?_
    rw [hφ.mul, hφ.mul, hφ.add, hφ.magnitude]
  | kEnergySpectrum =>
    simp only [h0, h1, hφ.mul]
    refine hmags (fun real imag => real * real + imag * imag) (fun real imag => real * real + imag * imag)
      _ _ _ _ fun x y => ?_
    rw [hφ.mul, hφ.mul, hφ.add]

end Same

end SpectralAnalysis

end Undertone
