import Undertone.Decoder.Defs
import Undertone.Lib.Bounded

/-!
# The handling of a frame, with its accesses

`DecodeAudioBuffer` of the multi-tone decoders once more, with every access to an array compared with the length that
the constructors allocate: an access outside has no outcome. The Fourier transform itself, which is not part of the
decoders, touches the cells it is given. A mode is an index too, of the arrays of three lanes that the decoder of all
modes keeps.
-/

namespace Undertone

open CountedLoop BoundedArray Globals
open RingBuffer (filled)

namespace Checked

variable {F D : Type} [Doubles D] [Floats F D] [CFFTOoura F]

/-! ## Arrays of values -/

section Values

variable {α : Type}

def sum (n : ℕ) (data : ℕ → F) (size : ℕ) : Option F :=
  forUpM 0 size (fun i sum => do return sum + (← get n data i)) (Floats.lit 0)

def maxValueIdx (gt : α → α → Bool) (n : ℕ) (myArray : ℕ → α) (size : ℕ) : Option ℕ := do
  let maxValue ← get n myArray 0
  let st ← forUpM 1 size (fun i (idx, maxValue) => do
    let value ← get n myArray i
    return if gt value maxValue then (i, value) else (idx, maxValue)) ((0 : ℕ), maxValue)
  return st.1

def secondValueIdx (gt : α → α → Bool) (n : ℕ) (myArray : ℕ → α) (size : ℕ) : Option ℕ := do
  let maxValIdx ← maxValueIdx gt n myArray size
  let secondidx : ℕ := if maxValIdx = 0 then 1 else 0
  let secondValue ← get n myArray secondidx
  let st ← forUpM 0 size (fun i (secondidx, secondValue) => do
    if i ≠ maxValIdx then
      let value ← get n myArray i
      return if gt value secondValue then (i, value) else (secondidx, secondValue)
    else return (secondidx, secondValue)) (secondidx, secondValue)
  return st.1

end Values

/-! ## The spectrum of the frame -/

/-- The transform of the windowed frame. The loop over the frame has `mFftSize + extra` rounds: one too many in the
source, which windows `mFftSize + 1` samples. -/
def transform (extra : ℕ) (S : SpectralAnalysis F) (buffer : ℕ → F) : Option (ℕ → F) := do
  let inputBuffer ← forUpM 0 (S.mFftSize + extra) (fun i a => do
    put (S.mFftSize + 1) a i ((← get S.mWindowSize buffer i) * (← get S.mWindowSize S.mWindow i))) S.inputBuffer
  let magSize := S.mFftSize / 2
  let inputBuffer := CFFTOoura.rdft (magSize * 2) inputBuffer
  forUpM 1 magSize (fun i a => do
    put (S.mFftSize + 1) a (i * 2 + 1 : ℕ) (-(← get (S.mFftSize + 1) a (i * 2 + 1 : ℕ)))) inputBuffer

/-- The magnitudes, from the real and the imaginary part of each bin and the real part of the first and the last. -/
def magnitudes (S : SpectralAnalysis F) (value : F → F → F) (edge : F → F) (inputBuffer : ℕ → F) : Option (ℕ → F) := do
  let magSize := S.mFftSize / 2
  let mag ← forUpM 1 magSize (fun i mag => do
    put S.mSpecSize mag i
      (value (← get (S.mFftSize + 1) inputBuffer (2 * i : ℕ)) (← get (S.mFftSize + 1) inputBuffer (2 * i + 1 : ℕ))))
    S.mSpecMag
  let mag ← put S.mSpecSize mag 0 (edge (← get (S.mFftSize + 1) inputBuffer 0))
  put S.mSpecSize mag magSize (edge (← get (S.mFftSize + 1) inputBuffer 1))

def phases (S : SpectralAnalysis F) (inputBuffer : ℕ → F) : Option (ℕ → F) := do
  let magSize := S.mFftSize / 2
  let imag ← put S.mSpecSize S.mSpecPhase 0 (Floats.lit 0)
  let imag ← put S.mSpecSize imag magSize (Floats.lit 0)
  forUpM 0 magSize (fun i imag => do
    put S.mSpecSize imag i (← get (S.mFftSize + 1) inputBuffer (2 * i + 1 : ℕ))) imag

def doFFT (extra : ℕ) (S : SpectralAnalysis F) (buffer : ℕ → F) : Option (SpectralAnalysis F) := do
  let inputBuffer ← transform extra S buffer
  let magSpectrum ← match S.mode with
    | .kMagnitudeSpectrum =>
      magnitudes S (fun real imag => Floats.sqrt (real * real + imag * imag)) Floats.abs inputBuffer
    | .kEnergySpectrum =>
      magnitudes S (fun real imag => real * real + imag * imag) (fun real => real * real) inputBuffer
  let imagSpectrum ← phases S inputBuffer
  return { S with inputBuffer := inputBuffer, mSpecMag := magSpectrum, mSpecPhase := imagSpectrum }

def storeSpectrum (extra : ℕ) (audioBuffer : ℕ → F) (A : Analysis F) : Option (Analysis F) := do
  let S ← doFFT extra A.mSpectralAnalysis audioBuffer
  let pos := A.mWritePosInBlockCircularBuffer % A.mSizeBlockCircularBuffer
  let mBlockSpecMag ← forUpM 0 S.mSpecSize (fun i mags => do
    put2 A.mSizeBlockCircularBuffer S.mSpecSize mags pos i (← get S.mSpecSize S.mSpecMag i)) A.mBlockSpecMag
  return { A with mSpectralAnalysis := S, mBlockSpecMag := mBlockSpecMag }

/-! ## The search for the start tokens -/

/-- The magnitudes around a bin, copied to `mEvalToneMags`, and their sum. -/
def sumAround (mSpecMag : ℤ → Option F) (evalToneBin : ℤ) : Option D := do
  let mEvalToneMags ← forUpM 0 Analysis.mSizeTokenBinAnal (fun n mags => do
    put Analysis.mSizeTokenBinAnal mags n (← mSpecMag (evalToneBin - Analysis.mBinWidth + n))) (fun _ => Floats.lit 0)
  return Floats.toDouble (← sum Analysis.mSizeTokenBinAnal mEvalToneMags Analysis.mSizeTokenBinAnal)

def ComputeStatsStartTokens (lanes : ℕ) (t : ℤ) (A : Analysis F) : Option (Analysis F) := do
  let L ← get lanes A.lane t
  let S := A.mSpectralAnalysis
  let energyBlock ← forUpM 0 (L.mEndBin - L.mBeginBin + 1).toNat (fun i energyBlock => do
    return energyBlock + (← get S.mSpecSize S.mSpecMag (L.mBeginBin + i))) (Floats.lit 0)
  let energyBlock := energyBlock / ofInt (L.mEndBin - L.mBeginBin + 1)
  let mEnergyRatios ← forUpM 0 Analysis.mNumTones (fun i mEnergyRatios => do
    let evalToneBin ← get Analysis.mNumTones L.mFreqsBins i
    let sum : D ← sumAround (get S.mSpecSize S.mSpecMag) evalToneBin
    let energyTone := sum / Doubles.lit Analysis.mSizeTokenBinAnal
    put Analysis.mNumTones mEnergyRatios i (Floats.ofDouble
      (Doubles.lit 20 * Doubles.log10 (energyTone / Floats.toDouble energyBlock)))) A.mEnergyRatios
  return { A with mEnergyRatios := mEnergyRatios }

def sortTones (lt : F → F → Bool) (size : ℕ) (a : ℕ → F) : Option ((ℕ → F) × (ℕ → ℕ)) := do
  let st ← forUpM 0 size (fun i (sorted, idx) => do
    let sorted ← put size sorted i (← get size a i)
    let idx ← put size idx i i
    return (sorted, idx)) (a, id)
  forUpM 0 (size - 1) (fun c st =>
    forUpM 0 (size - c - 1) (fun d (sorted, idx) => do
      let x ← get size sorted d
      let y ← get size sorted (d + 1 : ℕ)
      if lt x y then
        let sorted ← put size sorted d y
        let sorted ← put size sorted (d + 1 : ℕ) x
        let i ← get size idx d
        let j ← get size idx (d + 1 : ℕ)
        let idx ← put size idx d j
        let idx ← put size idx (d + 1 : ℕ) i
        return (sorted, idx)
      else return (sorted, idx)) st) st

def rankTones (lanes : ℕ) (t : ℤ) (A : Analysis F) : Option (Analysis F) := do
  let A ← ComputeStatsStartTokens lanes t A
  let st ← sortTones Floats.lt Analysis.mNumTones A.mEnergyRatios
  let n := A.mSizeBlockCircularBuffer
  let pos := A.mWritePosInBlockCircularBuffer % n
  let L ← get lanes A.lane t
  let idx ← put n L.mBlockEnergyRatiosTokenIdx pos (← get Analysis.mNumTones st.2 0)
  let idx2 ← put n L.mBlockEnergyRatiosTokenIdx2 pos (← get Analysis.mNumTones st.2 1)
  let idx3 ← put n L.mBlockEnergyRatiosTokenIdx3 pos (← get Analysis.mNumTones st.2 2)
  let idx4 ← put n L.mBlockEnergyRatiosTokenIdx4 pos (← get Analysis.mNumTones st.2 3)
  return A.setLane t.toNat fun L =>
    { L with
      mBlockEnergyRatiosTokenIdx := idx
      mBlockEnergyRatiosTokenIdx2 := idx2
      mBlockEnergyRatiosTokenIdx3 := idx3
      mBlockEnergyRatiosTokenIdx4 := idx4 }

def firstTokenRepetitions (A : Analysis F) (L : Lane F) : Option ℤ :=
  let n := A.mSizeBlockCircularBuffer
  forUpM 0 (n / 2) (fun i reps => do
    let posIdx := (L.mReadPosInBlockCircularBuffer + i) % n
    let idx ← get n L.mBlockEnergyRatiosTokenIdx posIdx
    return if idx = Analysis.idxTonesFrontDoorToken1.1 then reps + 1 else reps) 0

def secondTokenRepetitions (A : Analysis F) (L : Lane F) : Option ℤ :=
  let n := A.mSizeBlockCircularBuffer
  forUpM (n / 2) n (fun i reps => do
    let posIdx := (L.mReadPosInBlockCircularBuffer + i) % n
    let idx ← get n L.mBlockEnergyRatiosTokenIdx posIdx
    if idx = Analysis.idxTonesFrontDoorToken2.1 then return reps + 1
    else
      let idx2 ← get n L.mBlockEnergyRatiosTokenIdx2 posIdx
      return if idx2 = Analysis.idxTonesFrontDoorToken2.1 then reps + 1 else reps) 0

def startFound (A : Analysis F) (L : Lane F) : Option Bool := do
  let first ← firstTokenRepetitions A L
  if first ≥ (A.mSizeBlockCircularBuffer / 2 : ℕ) - A.mnToleranceFrames then
    let second ← secondTokenRepetitions A L
    return decide (second ≥ (A.mSizeBlockCircularBuffer / 2 : ℕ) - A.mnToleranceFrames * 2)
  else return false

def searchLoop (lanes : ℕ) (t : ℤ) : ℕ → Analysis F → Option (Bool × Analysis F)
  | 0, A => some (false, A)
  | fuel + 1, A => do
    let L ← get lanes A.lane t
    if (filled A.mSizeBlockCircularBuffer L.mReadPosInBlockCircularBuffer A.mWritePosInBlockCircularBuffer : ℤ) ≥
        A.mSizeBlockCircularBuffer - 1 then
      if ← startFound A L then return (true, Analysis.beginMessage t.toNat A)
      else searchLoop lanes t fuel (Analysis.advanceReadPos t.toNat A)
    else return (false, A)

def searchMode (lanes t : ℕ) (A : Analysis F) : Option (Bool × Analysis F) := do
  let A ← rankTones lanes t A
  let A := if t = 0 then A.advanceWritePos else A
  searchLoop lanes t A.mSizeBlockCircularBuffer A

/-- The rounds of `for (int t = 0; t < lanes; t++)` that are left, from `t` on. -/
def searchModes (lanes : ℕ) : ℕ → ℕ → Analysis F → Option (ℤ × Analysis F)
  | 0, _, A => some (0, A)
  | rounds + 1, t, A => do
    let (found, A) ← searchMode lanes t A
    if found then return (1 + t, A) else searchModes lanes rounds (t + 1) A

def AnalyzeStartTokens (extra lanes : ℕ) (audioBuffer : ℕ → F) (A : Analysis F) : Option (ℤ × Analysis F) := do
  let A ← storeSpectrum extra audioBuffer A
  searchModes lanes lanes 0 A

/-! ## Tokens -/

def energyBlock (A : Analysis F) (L : Lane F) : Option D := do
  let n := A.mSizeBlockCircularBuffer
  let energyBlock ← forUpM 0 (n / 2) (fun k energyBlock =>
    forUpM 0 (L.mEndBin - L.mBeginBin + 1).toNat (fun i energyBlock => do
      let mag ← get2 n A.mSpectralAnalysis.mSpecSize A.mBlockSpecMag
        ((L.mReadPosInBlockCircularBuffer + k) % n : ℕ) (L.mBeginBin + i)
      return energyBlock + Floats.toDouble mag) energyBlock) (Doubles.lit 0)
  return energyBlock / (Doubles.lit (L.mEndBin - L.mBeginBin + 1 : ℤ) * Doubles.lit (n / 2 : ℕ))

/-- Where `ComputeStats` looks for a tone, from the bin of the tone. -/
def hopBin (g : Globals F) (mode mDecoding bin : ℤ) : ℤ :=
  if mDecoding.tmod 3 = 1 then bin + Analysis.nBinsOffset g mode
  else if mDecoding.tmod 3 = 2 then bin + Analysis.nBinsOffset g mode * 2
  else bin

def frameStats (g : Globals F) (mode mDecoding : ℤ) (energyBlock : D) (L : Lane F) (k : ℕ) (A : Analysis F) :
    Option (Analysis F) := do
  let n := A.mSizeBlockCircularBuffer
  let S := A.mSpectralAnalysis
  let st ← forUpM 0 Analysis.mNumTones (fun i (mEnergy, mEnergyRatios) => do
    let evalToneBin ← get Analysis.mNumTones L.mFreqsBins i
    let sum : D ← sumAround (get2 n S.mSpecSize A.mBlockSpecMag ((L.mReadPosInBlockCircularBuffer + k) % n : ℕ))
      (hopBin g mode mDecoding evalToneBin)
    let energyToken := sum / Doubles.lit Analysis.mSizeTokenBinAnal
    let mEnergy ← put Analysis.mNumTones mEnergy i (Floats.ofDouble (sum * Doubles.lit S.mSpecSize /
      Floats.toDouble (ofInt (n / 2 : ℕ) : F)))
    let mEnergyRatios ← put Analysis.mNumTones mEnergyRatios i (Floats.ofDouble
      (Doubles.lit 20 * Doubles.log10 (energyToken / energyBlock)))
    return (mEnergy, mEnergyRatios)) (A.mEnergy, A.mEnergyRatios)
  return { A with mEnergy := st.1, mEnergyRatios := st.2 }

def noteTones (lanes : ℕ) (t : ℤ) (k : ℕ) (A : Analysis F) : Option (Analysis F) := do
  let n := A.mSizeBlockCircularBuffer
  let idx_max ← maxValueIdx floatGt Analysis.mNumTones A.mEnergyRatios Analysis.mNumTones
  let idx_second ← secondValueIdx floatGt Analysis.mNumTones A.mEnergyRatios Analysis.mNumTones
  let L ← get lanes A.lane t
  let s := (L.mReadPosInBlockCircularBuffer + k) % n
  let maxIdx ← put n A.mBlockEnergyRatiosMaxToneIdx s idx_max
  let secondIdx ← put n A.mBlockEnergyRatiosSecondToneIdx s idx_second
  let p ← get n L.mBlockTokenStatistics s
  let p := { p with
    idxToneMax := idx_max
    idxToneSecond := idx_second
    energyRatioToneMax := ← get Analysis.mNumTones A.mEnergyRatios idx_max
    energyRatioToneSecond := ← get Analysis.mNumTones A.mEnergyRatios idx_second
    energyToken := (← get Analysis.mNumTones A.mEnergy idx_max) + (← get Analysis.mNumTones A.mEnergy idx_second) }
  let statistics ← put n L.mBlockTokenStatistics s p
  return { A.setLane t.toNat (fun L => { L with mBlockTokenStatistics := statistics }) with
    mBlockEnergyRatiosMaxToneIdx := maxIdx
    mBlockEnergyRatiosSecondToneIdx := secondIdx }

def ComputeStats (lanes : ℕ) (g : Globals F) (mode mDecoding t : ℤ) (A : Analysis F) : Option (Analysis F) := do
  let L ← get lanes A.lane t
  let energyBlock : D ← energyBlock A L
  forUpM 0 (A.mSizeBlockCircularBuffer / 2) (fun k A => do
    let A ← frameStats g mode mDecoding energyBlock L k A
    noteTones lanes t k A) A

def mToneRepetitions (A : Analysis F) (L : Lane F) : Option (ℕ → ℤ) := do
  let n := A.mSizeBlockCircularBuffer
  forUpM 0 (n / 2) (fun i reps => do
    let s := (L.mReadPosInBlockCircularBuffer + i) % n
    let idx ← get n A.mBlockEnergyRatiosMaxToneIdx s
    let reps ← put Analysis.mNumTones reps idx ((← get Analysis.mNumTones reps idx) + 1)
    let idx ← get n A.mBlockEnergyRatiosSecondToneIdx s
    put Analysis.mNumTones reps idx ((← get Analysis.mNumTones reps idx) + 1)) (fun _ => 0)

def noteTokens (lanes : ℕ) (mode t : ℤ) (A : Analysis F) : Option (Analysis F) :=
  forUpM 0 (A.mSizeBlockCircularBuffer / 2) (fun i A => do
    let n := A.mSizeBlockCircularBuffer
    let L ← get lanes A.lane t
    let s := (L.mReadPosInBlockCircularBuffer + i) % n
    let p ← get n L.mBlockTokenStatistics s
    let p := { p with
      idxToken := Analysis.idxToken mode p.idxToneMax p.idxToneSecond
      energyRatioToken := (p.energyRatioToneMax + p.energyRatioToneSecond) / Floats.lit 2 }
    let statistics ← put n L.mBlockTokenStatistics s p
    return A.setLane t.toNat fun L => { L with mBlockTokenStatistics := statistics }) A

def agreement (max : ℤ) (A : Analysis F) (L : Lane F) : Option (F × F) :=
  let n := A.mSizeBlockCircularBuffer
  forUpM 0 (n / 2) (fun i (prob, energy) => do
    let p ← get n L.mBlockTokenStatistics ((L.mReadPosInBlockCircularBuffer + i) % n : ℕ)
    return if p.idxToken = max then (prob + p.energyRatioToken, energy + p.energyToken) else (prob, energy))
    (Floats.lit 0, Floats.lit 0)

def decodeBlock (lanes : ℕ) (g : Globals F) (mode mDecoding t : ℤ) (A : Analysis F) : Option (ℤ × Analysis F) := do
  let A ← ComputeStats lanes g mode mDecoding t A
  let reps ← mToneRepetitions A (← get lanes A.lane t)
  let A ← noteTokens lanes mode t A
  let max1 ← maxValueIdx intGt Analysis.mNumTones reps Analysis.mNumTones
  let max2 ← secondValueIdx intGt Analysis.mNumTones reps Analysis.mNumTones
  let max := Analysis.idxToken mode max1 max2
  let probEnergy ← agreement max A (← get lanes A.lane t)
  let half : F := ofInt (A.mSizeBlockCircularBuffer / 2 : ℕ)
  let reps1 ← get Analysis.mNumTones reps max1
  let reps2 ← get Analysis.mNumTones reps max2
  return (max, Analysis.consumeBlock t.toNat { A with
    mConfidenceEnergyRatios := A.mConfidenceEnergyRatios + probEnergy.1 / half
    mReceivedOxysVolume := A.mReceivedOxysVolume + probEnergy.2 / half
    mConfidenceRepetitions := A.mConfidenceRepetitions +
      (ofInt reps1 + ofInt reps2) / ofInt A.mSizeBlockCircularBuffer })

def AnalyzeToken (extra lanes : ℕ) (g : Globals F) (mode mDecoding t : ℤ) (audioBuffer : ℕ → F) (A : Analysis F) :
    Option (ℤ × Analysis F) := do
  let A ← storeSpectrum extra audioBuffer A
  let A := A.advanceWritePos
  let L ← get lanes A.lane t
  if filled A.mSizeBlockCircularBuffer L.mReadPosInBlockCircularBuffer A.mWritePosInBlockCircularBuffer ≥
      A.mSizeBlockCircularBuffer / 2 then
    decodeBlock lanes g mode mDecoding t A
  else return (-1, A)

/-! ## The loop over the frames -/

/-- The body of the loop of `DecodeAudioBuffer`, for a multi-tone decoder. -/
def step (extra : ℕ) (c : DecoderClass) (g : Globals F) (mAnalBufferFloat : ℕ → F) (C : Core F) :
    Option (Option ℤ × Core F) :=
  if C.mDecoding = 0 then do
    let (ret, A) ← AnalyzeStartTokens extra c.lanes mAnalBufferFloat C.analysis
    return if Core.isStart c ret then (some (-2), C.begin c ret A) else (none, { C with analysis := A })
  else if C.mDecoding > 0 ∧ C.mDecoding ≤ numMessageTokens then do
    let (mode, t) := if c = .AllMultiTone then (C.mDecodingMode, C.mDecodingMode) else (c.mode, 0)
    let (ret, A) ← AnalyzeToken extra c.lanes g mode C.mDecoding t mAnalBufferFloat C.analysis
    return if ret ≥ 0 then (some ret, C.append ret A) else (none, { C with analysis := A })
  else if C.mDecoding > numMessageTokens then return (some (-3), C.finish c)
  else return (none, C)

def write (audioBuffer : ℕ → F) (size : ℕ) (B : FrameBuffer F) : Option (FrameBuffer F) := do
  let cells ← forUpM 0 size (fun i cells => do
    put B.mSizeFrameCircularBuffer cells ((i + B.mWritePosInFrameCircularBuffer) % B.mSizeFrameCircularBuffer : ℕ)
      (← get size audioBuffer i)) B.mCircularBufferFloat
  return { B with
    mCircularBufferFloat := cells
    mWritePosInFrameCircularBuffer := (size + B.mWritePosInFrameCircularBuffer) % B.mSizeFrameCircularBuffer }

def nextFrame (B : FrameBuffer F) : Option (FrameBuffer F) := do
  let samples ← forUpM 0 B.mWindowSize (fun i a => do
    put B.mWindowSize a i (← get B.mSizeFrameCircularBuffer B.mCircularBufferFloat
      ((i + B.mReadPosInFrameCircularBuffer) % B.mSizeFrameCircularBuffer : ℕ))) B.mAnalBufferFloat
  return { B with
    mAnalBufferFloat := samples
    mReadPosInFrameCircularBuffer := (B.mReadPosInFrameCircularBuffer + B.mHopSize) % B.mSizeFrameCircularBuffer }

def frameLoop {σ : Type} (step : (ℕ → F) → σ → Option (Option ℤ × σ)) :
    ℕ → FrameBuffer F × σ → Option (Option ℤ × FrameBuffer F × σ)
  | 0, st => some (none, st)
  | fuel + 1, (B, s) =>
    if B.getSizeFilledFrameCircularBuffer ≥ B.mWindowSize then do
      let B ← nextFrame B
      match ← step B.mAnalBufferFloat s with
      | (some r, s) => return (some r, B, s)
      | (none, s) => frameLoop step fuel (B, s)
    else some (none, B, s)

/-- `DecodeAudioBuffer(audioBuffer, size)` -/
def DecodeAudioBuffer (extra : ℕ) (g : Globals F) (audioBuffer : ℕ → F) (size : ℕ) (d : Decoder F) :
    Option (ℤ × Decoder F) := do
  let B ← write audioBuffer size d.frames
  let (ret, frames, core) ← frameLoop (step extra d.cls g) B.getSizeFilledFrameCircularBuffer (B, d.core)
  return (ret.getD (-1), { d with frames := frames, core := core })

/-- A run of calls with these chunks. -/
def run (extra : ℕ) (g : Globals F) : List ((ℕ → F) × ℕ) → Decoder F → Option (Decoder F)
  | [], d => some d
  | (audioBuffer, size) :: calls, d => do
    let answer ← DecodeAudioBuffer extra g audioBuffer size d
    run extra g calls answer.2

end Checked

end Undertone
