import Undertone.Decoder.MultiTone

/-!
# The analysis of frames in the single-tone decoders

`AnalyzeStartTokens` and `AnalyzeToken` of `DecoderAudibleMode.cpp` and `DecoderNonAudibleMode.cpp`. A token is one
tone, so there are as many tones as tokens. The two classes differ in the grid of their frequencies, in the number of
bins that the removal of reverberation looks at, and in the precision of three factors: `*= 0.2` in one of them,
`*= 0.2f` in the other.
-/

namespace Undertone

open CountedLoop RingBuffer Globals

/-- What distinguishes the two classes. -/
structure SingleTone (F : Type) where
  getFreqFromIdx : ℤ → F → ℕ → F
  binwidth : ℕ
  /-- `x *= q` for a decimal constant `q` -/
  scale : ℚ → F → F

namespace SingleTone

open Analysis (mNumTokens mBinWidth mSizeTokenBinAnal idxFrontDoorToken1 idxFrontDoorToken2)

variable {F D : Type} [Doubles D] [Floats F D] [CFFTOoura F]

def DecoderAudible : SingleTone F where
  getFreqFromIdx := getFreqFromIdxAudible
  binwidth := 2
  scale q x := Floats.ofDouble (Floats.toDouble x * Doubles.lit q)

def DecoderNonAudible : SingleTone F where
  getFreqFromIdx := getFreqFromIdxNonAudible
  binwidth := 1
  scale q x := x * Floats.lit q

/-- A tone for each token. -/
def mNumTones : ℕ := numTokensAll

/-! ## The search for the start tokens -/

/-- The mean energy in the alphabet frequency region and the ratios of the tokens to it, in the last spectrum. -/
def ComputeStatsStartTokens (A : Analysis F) : Analysis F :=
  let L := A.lane 0
  let energyBlock : F := forUp 0 (L.mEndBin - L.mBeginBin + 1).toNat (fun i energyBlock =>
    energyBlock + cell A.mSpectralAnalysis.mSpecMag (L.mBeginBin + i)) (Floats.lit 0)
  let energyBlock := energyBlock / ofInt (L.mEndBin - L.mBeginBin + 1)
  { A with mEnergyRatios := forUp 0 mNumTokens (fun i mEnergyRatios =>
      let mEvalTokenMags := fun n : ℕ => cell A.mSpectralAnalysis.mSpecMag (L.mFreqsBins i - mBinWidth + n)
      let sum : D := Floats.toDouble (Globals.sum mEvalTokenMags mSizeTokenBinAnal)
      let energyToken := sum / Doubles.lit mSizeTokenBinAnal
      Function.update mEnergyRatios i (Floats.ofDouble
        (Doubles.lit 20 * Doubles.log10 (energyToken / Floats.toDouble energyBlock)))) A.mEnergyRatios }

/-- `(int)((mSizeBlockCircularBuffer/2.0) * q + 0.5)` -/
def frames (A : Analysis F) (q : ℚ) : ℤ :=
  Doubles.trunc ((Doubles.lit (A.mSizeBlockCircularBuffer / 2 : ℚ) * Doubles.lit q + Doubles.lit 0.5 : D))

/-- Frames of the window between `lo` and `hi` with the token `token` at their place in `idx`. -/
def repetitions (A : Analysis F) (idx : ℕ → ℤ) (token : ℤ) (lo hi : ℕ) : ℤ :=
  forUp lo hi (fun i n => if idx (A.blockPos 0 i) = token then n + 1 else n) 0

/-- The window holds both start tokens, the second one possibly under the reverberation of the first. -/
def startFound (_t : ℕ) (A : Analysis F) : Bool :=
  let L := A.lane 0
  let half := A.mSizeBlockCircularBuffer / 2
  let nToleranceFrames := frames (D := D) A 0.10
  let nFramesReverb := frames (D := D) A 0.5
  let first := repetitions A L.mBlockEnergyRatiosTokenIdx idxFrontDoorToken1 0 half
  let second := repetitions A L.mBlockEnergyRatiosTokenIdx idxFrontDoorToken2 half A.mSizeBlockCircularBuffer
  let secondAsSecond :=
    repetitions A L.mBlockEnergyRatiosTokenIdx2 idxFrontDoorToken2 half A.mSizeBlockCircularBuffer
  decide (first ≥ half - nToleranceFrames ∧
    (second ≥ half - (nToleranceFrames + nFramesReverb) ∨ second + secondAsSecond ≥ half - nToleranceFrames))

def AnalyzeStartTokens (audioBuffer : ℕ → F) (A : Analysis F) : ℤ × Analysis F :=
  let A := ComputeStatsStartTokens (A.storeSpectrum audioBuffer)
  let pos := A.mWritePosInBlockCircularBuffer % A.mSizeBlockCircularBuffer
  let A := A.setLane 0 fun L => { L with
    mBlockEnergyRatiosTokenIdx :=
      Function.update L.mBlockEnergyRatiosTokenIdx pos (maxValueIdx floatGt A.mEnergyRatios mNumTokens)
    mBlockEnergyRatiosTokenIdx2 :=
      Function.update L.mBlockEnergyRatiosTokenIdx2 pos (secondValueIdx floatGt A.mEnergyRatios mNumTokens) }
  let (found, A) := Analysis.searchLoop (startFound (D := D)) 0 A.mSizeBlockCircularBuffer A.advanceWritePos
  if found then (1, A) else (0, A)

/-! ## Tokens -/

/-- The bodies of `ComputeBlockMagSpecSumsCurrentToken` and `ComputeBlockMagSpecSumsLastToken`, which read the frames
of the block and those `offset` frames later: the mean of the sums over the bins, and the sums, appended. -/
def ComputeBlockMagSpecSums (A : Analysis F) (offset : ℕ) (midFreqBin : ℤ) (width nbins : ℤ) (sumPerFrame : List F) :
    F × List F :=
  let lbin := max 0 (midFreqBin - width)
  let rbin := min nbins (midFreqBin + width)
  let (mean, sumPerFrame) := forUp 0 (A.mSizeBlockCircularBuffer / 2) (fun i (mean, sumPerFrame) =>
    let sumFr := forUp 0 (rbin - lbin).toNat (fun j sumFr =>
      sumFr + cell (A.mBlockSpecMag (A.blockPos 0 (offset + i))) (lbin + j)) (Floats.lit 0)
    (mean + sumFr, sumPerFrame ++ [sumFr])) (Floats.lit 0, sumPerFrame)
  (mean / ofInt (A.mSizeBlockCircularBuffer / 2 : ℕ), sumPerFrame)

def ComputeBlockMagSpecSumsCurrentToken (A : Analysis F) : ℤ → ℤ → ℤ → List F → F × List F :=
  ComputeBlockMagSpecSums A 0

def ComputeBlockMagSpecSumsLastToken (A : Analysis F) : ℤ → ℤ → ℤ → List F → F × List F :=
  ComputeBlockMagSpecSums A (A.mSizeBlockCircularBuffer / 2)

/-- Attenuate the bins of the block around `bin`. -/
def attenuate (binwidth : ℕ) (bin : ℤ) (A : Analysis F) : Analysis F :=
  { A with mBlockSpecMag := forUp 0 (A.mSizeBlockCircularBuffer / 2) (fun s mag =>
      forUp 0 (2 * binwidth) (fun j mag =>
        let i := (bin - binwidth + j).toNat
        set2 mag (A.blockPos 0 s) i (mag (A.blockPos 0 s) i * Floats.lit 0.05)) mag) A.mBlockSpecMag }

/-- It attenuates the magnitude of those bins in the token that have a larger and stable energy in the last token. -/
def DeReverbToken (c : SingleTone F) (nbins : ℤ) (freqsBins : ℕ → ℤ) (A : Analysis F) : Analysis F :=
  forUp 0 mNumTones (fun i A =>
    let half := A.mSizeBlockCircularBuffer / 2
    let (meanCur, sums) := ComputeBlockMagSpecSumsCurrentToken A (freqsBins i) c.binwidth nbins []
    let sum := fun k => sums.getD k (Floats.lit 0)
    let diffBeginEndCur := sum 0 + sum 1 - (sum (half - 2) + sum (half - 1))
    let (meanLast, sums) := ComputeBlockMagSpecSumsLastToken A (freqsBins i) c.binwidth nbins sums
    let reverbFound := Floats.lt meanCur (Floats.pow (Floats.lit 10) (-Floats.lit 2 / Floats.lit 20) * meanLast) &&
      Floats.lt (Floats.lit 0) diffBeginEndCur
    let A := { A with mSumPerFrame := sums }
    if reverbFound then attenuate c.binwidth (freqsBins i) A else A) A

/-- Reduce the probability of the last tokens decoded: the factors by which the energy of token `i` is multiplied. -/
def reverbFactors (mDecoding : ℤ) (mDecodedValues : List ℤ) (i : ℤ) : List ℚ :=
  let size := mDecodedValues.length
  if size > 0 then
    (if i = mDecodedValues.getD (size - 1) 0 then [0.2] else []) ++
      (if size > 1 ∧ i = mDecodedValues.getD (size - 2) 0 then [0.4] else []) ++
        (if size > 2 ∧ i = mDecodedValues.getD (size - 3) 0 then [0.7] else [])
  else if mDecoding > 0 then
    (if i = idxFrontDoorToken2 then [0.2] else []) ++ (if i = idxFrontDoorToken1 then [0.4] else [])
  else []

/-- The ratio of the energy of token `i` in frame `k` of the block to the energy mean of the block. -/
def energyRatio (c : SingleTone F) (mDecoding : ℤ) (mDecodedValues : List ℤ) (energyBlock : D) (A : Analysis F)
    (k i : ℕ) : F :=
  let evalTokenBin := Globals.round (c.getFreqFromIdx i A.mSampleRate A.mSpectralAnalysis.mWindowSize * A.mFreq2Bin)
  let mEvalTokenMags := fun n : ℕ =>
    (reverbFactors mDecoding mDecodedValues i).foldl (fun x q => c.scale q x)
      (cell (A.mBlockSpecMag (A.blockPos 0 k)) (evalTokenBin - mBinWidth + n))
  let sum : D := Floats.toDouble (Globals.sum mEvalTokenMags mSizeTokenBinAnal)
  let energyToken := sum / Doubles.lit mSizeTokenBinAnal
  Floats.ofDouble (Doubles.lit 20 * Doubles.log10 (energyToken / energyBlock))

def ComputeStats (c : SingleTone F) (mDecoding : ℤ) (mDecodedValues : List ℤ) (A : Analysis F) : Analysis F :=
  let energyBlock := A.energyBlock 0
  forUp 0 (A.mSizeBlockCircularBuffer / 2) (fun k A =>
    let mEnergyRatios := forUp 0 mNumTokens (fun i mEnergyRatios =>
      Function.update mEnergyRatios i (energyRatio c mDecoding mDecodedValues energyBlock A k i)) A.mEnergyRatios
    let A := { A with mEnergyRatios := mEnergyRatios }
    A.setLane 0 fun L => { L with
      mBlockEnergyRatiosTokenIdx := Function.update L.mBlockEnergyRatiosTokenIdx (A.blockPos 0 k)
        (maxValueIdx floatGt mEnergyRatios mNumTokens) }) A

/-- `(int)(((float)mSizeBlockCircularBuffer / 2.f) * 0.10f + .5f)` -/
def reverbFrames (A : Analysis F) : ℤ :=
  let x : F := ofInt A.mSizeBlockCircularBuffer / Floats.lit 2 * Floats.lit 0.10 + Floats.lit 0.5
  Doubles.trunc (Floats.toDouble x)

/-- The votes of the frames of the block, less the first ones, which may be reverberation. -/
def mTokenRepetitions (A : Analysis F) : ℕ → ℤ :=
  forUp (reverbFrames A).toNat (A.mSizeBlockCircularBuffer / 2) (fun i reps =>
    let idx := ((A.lane 0).mBlockEnergyRatiosTokenIdx (A.blockPos 0 i)).toNat
    Function.update reps idx (reps idx + 1)) (fun _ => 0)

def AnalyzeToken (c : SingleTone F) (mDecoding : ℤ) (mDecodedValues : List ℤ) (audioBuffer : ℕ → F)
    (A : Analysis F) : ℤ × Analysis F :=
  let A := (A.storeSpectrum audioBuffer).advanceWritePos
  if A.getSizeFilledBlockCircularBuffer 0 ≥ A.mSizeBlockCircularBuffer / 2 then
    let L := A.lane 0
    let A := DeReverbToken c (L.mEndBin - L.mBeginBin + 1) L.mFreqsBins A
    let A := ComputeStats c mDecoding mDecodedValues A
    (maxValueIdx intGt (mTokenRepetitions A) mNumTokens, A.consumeBlock 0)
  else (-1, A)

end SingleTone

end Undertone
