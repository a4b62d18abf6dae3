import Undertone.Globals

/-!
# `SpectralAnalysis.cpp`

The window and the spectrum of one frame. The fast Fourier transform itself is the vendored `CFFTOoura`.
-/

namespace Undertone

open CountedLoop

inductive Mode
  | kMagnitudeSpectrum
  | kEnergySpectrum
  deriving DecidableEq, Inhabited

structure SpectralAnalysis (F : Type) where
  mode : Mode
  mFftSize : ℕ
  mWindowSize : ℕ
  mHopSize : ℕ
  mSpecMag : ℕ → F
  mSpecPhase : ℕ → F
  mWindow : ℕ → F
  inputBuffer : ℕ → F
  deriving Inhabited

namespace SpectralAnalysis

variable {F D : Type} [Floats F D] [CFFTOoura F]

def mSpecSize (S : SpectralAnalysis F) : ℕ := S.mFftSize / 2 + 1

/-- `float(Globals::two_pi)/(size-1.0f)*i` -/
def windowAngle (size i : ℕ) : F := Globals.two_pi / (Globals.ofInt size - Floats.lit 1) * Globals.ofInt i

/-- The terms of the window before it is scaled. -/
def blackmanHarris74 (size i : ℕ) : F :=
  Floats.lit 0.47 - Floats.lit 0.45 * Floats.cos (windowAngle size i)
    - Floats.lit 0.01 * Floats.cos (windowAngle size i * Floats.lit 2)
    - Floats.lit 0.01 * Floats.cos (windowAngle size i * Floats.lit 3)

def generateBlackmanHarris74Window (window : ℕ → F) (size : ℕ) : ℕ → F :=
  let (window, fSum) := forUp 0 size (fun i (window, fSum) =>
    (Function.update window i (blackmanHarris74 size i), fSum + blackmanHarris74 size i)) (window, Floats.lit 0)
  let fSum := fSum / Floats.lit 2
  forUp 0 size (fun i window => Function.update window i (window i / fSum)) window

/-- The constructor, run on arrays that `new` left uninitialised. -/
def new (mem : SpectralAnalysis F) (mode : Mode) (fftSize windowSize hopSize : ℕ) : SpectralAnalysis F :=
  { mem with
    mode := mode
    mFftSize := fftSize
    mWindowSize := windowSize
    mHopSize := hopSize
    mWindow := generateBlackmanHarris74Window mem.mWindow windowSize }

/-- The transform of the windowed frame, with the imaginary parts negated. -/
def transform (S : SpectralAnalysis F) (buffer : ℕ → F) : ℕ → F :=
  let inputBuffer := forUp 0 (S.mFftSize + 1) (fun i a => Function.update a i (buffer i * S.mWindow i)) S.inputBuffer
  let magSize := S.mFftSize / 2
  let inputBuffer := CFFTOoura.rdft (magSize * 2) inputBuffer
  forUp 1 magSize (fun i a => Function.update a (i * 2 + 1) (-(a (i * 2 + 1)))) inputBuffer

/-- `doFFT(buffer, mSpecMag, mSpecPhase)` -/
def doFFT (S : SpectralAnalysis F) (buffer : ℕ → F) : SpectralAnalysis F :=
  let inputBuffer := transform S buffer
  let magSize := S.mFftSize / 2
  let magSpectrum :=
    match S.mode with
    | .kMagnitudeSpectrum =>
      let mag := forUp 1 magSize (fun i mag =>
        let real := inputBuffer (2 * i)
        let imag := inputBuffer (2 * i + 1)
        Function.update mag i (Floats.sqrt (real * real + imag * imag))) S.mSpecMag
      Function.update (Function.update mag 0 (Floats.abs (inputBuffer 0))) magSize (Floats.abs (inputBuffer 1))
    | .kEnergySpectrum =>
      let mag := forUp 1 magSize (fun i mag =>
        let real := inputBuffer (2 * i)
        let imag := inputBuffer (2 * i + 1)
        Function.update mag i (real * real + imag * imag)) S.mSpecMag
      Function.update (Function.update mag 0 (inputBuffer 0 * inputBuffer 0)) magSize (inputBuffer 1 * inputBuffer 1)
  let imagSpectrum := Function.update (Function.update S.mSpecPhase 0 (Floats.lit 0)) magSize (Floats.lit 0)
  let imagSpectrum := forUp 0 magSize (fun i imag => Function.update imag i (inputBuffer (2 * i + 1))) imagSpectrum
  { S with inputBuffer := inputBuffer, mSpecMag := magSpectrum, mSpecPhase := imagSpectrum }

@[simp] theorem doFFT_mFftSize (S : SpectralAnalysis F) (b : ℕ → F) : (doFFT S b).mFftSize = S.mFftSize := rfl

end SpectralAnalysis

end Undertone
