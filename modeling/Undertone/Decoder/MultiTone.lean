import Undertone.Lib.Ring
import Undertone.Spectral

/-!
# The analysis of frames in the multi-tone decoders

`AnalyzeStartTokens` and `AnalyzeToken` of `Decoder{Audible,NonAudible,Compression,Custom,All}MultiToneMode.cpp`.
The four single-mode classes differ only in the names of the globals they read. `DecoderAllMultiTone` keeps in arrays
indexed by the mode what the others keep once, and runs their search for each mode in turn; here both have lanes, one
or three of them. An index outside an array reads some element: nothing below depends on which.
-/

namespace Undertone

open CountedLoop RingBuffer Globals

structure sTokenProbs (F : Type) where
  idxToken : ℤ
  energyRatioToken : F
  idxToneMax : ℤ
  idxToneSecond : ℤ
  energyRatioToneMax : F
  energyRatioToneSecond : F
  energyToken : F
  deriving Inhabited

/-- What the decoders keep for each mode they listen to. -/
structure Lane (F : Type) where
  mReadPosInBlockCircularBuffer : ℕ
  mFreqsBins : ℕ → ℤ
  mBeginBin : ℤ
  mEndBin : ℤ
  mBlockEnergyRatiosTokenIdx : ℕ → ℤ
  mBlockEnergyRatiosTokenIdx2 : ℕ → ℤ
  mBlockEnergyRatiosTokenIdx3 : ℕ → ℤ
  mBlockEnergyRatiosTokenIdx4 : ℕ → ℤ
  mBlockTokenStatistics : ℕ → sTokenProbs F
  deriving Inhabited

/-- The fields of `Decoder` that the analysis of a frame reads and writes. -/
structure Analysis (F : Type) where
  mSampleRate : F
  mSpectralAnalysis : SpectralAnalysis F
  mFreq2Bin : F
  mEnergy : ℕ → F
  mEnergyRatios : ℕ → F
  mWritePosInBlockCircularBuffer : ℕ
  mSizeBlockCircularBuffer : ℕ
  mnToleranceFrames : ℤ
  mBlockSpecMag : ℕ → ℕ → F
  mBlockEnergyRatiosMaxToneIdx : ℕ → ℤ
  mBlockEnergyRatiosSecondToneIdx : ℕ → ℤ
  mEndStartTokenPosInBlockCircularBuffer : ℕ
  /-- In half frames: every addition is of `mSizeBlockCircularBuffer / 2.0`. -/
  mAccumulatedDecodingFrames : ℕ
  mSumPerFrame : List F
  mConfidenceEnergyRatios : F
  mConfidenceRepetitions : F
  mConfidence : F
  mReceivedOxysVolume : F
  lane : ℕ → Lane F
  deriving Inhabited

/-- `a[i]` for a computed index. -/
def cell {α : Type*} (a : ℕ → α) (i : ℤ) : α := a i.toNat

namespace Analysis

variable {F D : Type} [Doubles D] [Floats F D] [CFFTOoura F]

/-! ## What the constructors set to the same values in every multi-tone decoder -/

def mNumTokens : ℕ := numTokensAll
def mNumTones : ℕ := numTonesAll
def mBinWidth : ℕ := 1
def mSizeTokenBinAnal : ℕ := mBinWidth * 2 + 1
def idxFrontDoorToken1 : ℤ := getIdxFromChar frontDoorTokens.1
def idxFrontDoorToken2 : ℤ := getIdxFromChar frontDoorTokens.2
def idxTonesFrontDoorToken1 : ℤ × ℤ := getIdxsFromIdx idxFrontDoorToken1
def idxTonesFrontDoorToken2 : ℤ × ℤ := getIdxsFromIdx idxFrontDoorToken2

/-! ## Positions in the block ring -/

def setLane (A : Analysis F) (t : ℕ) (f : Lane F → Lane F) : Analysis F :=
  { A with lane := Function.update A.lane t (f (A.lane t)) }

/-- `getSizeFilledBlockCircularBuffer(mode)` -/
def getSizeFilledBlockCircularBuffer (A : Analysis F) (t : ℕ) : ℕ :=
  filled A.mSizeBlockCircularBuffer (A.lane t).mReadPosInBlockCircularBuffer A.mWritePosInBlockCircularBuffer

/-- `(mReadPosInBlockCircularBuffer + i) % mSizeBlockCircularBuffer` -/
def blockPos (A : Analysis F) (t i : ℕ) : ℕ :=
  ((A.lane t).mReadPosInBlockCircularBuffer + i) % A.mSizeBlockCircularBuffer

/-- Transform the frame and copy its spectrum into the block ring. -/
def storeSpectrum (audioBuffer : ℕ → F) (A : Analysis F) : Analysis F :=
  let S := A.mSpectralAnalysis.doFFT audioBuffer
  let pos := A.mWritePosInBlockCircularBuffer % A.mSizeBlockCircularBuffer
  { A with
    mSpectralAnalysis := S
    mBlockSpecMag := Function.update A.mBlockSpecMag pos fun i =>
      if i < S.mSpecSize then S.mSpecMag i else A.mBlockSpecMag pos i }

def advanceWritePos (A : Analysis F) : Analysis F :=
  { A with mWritePosInBlockCircularBuffer := (A.mWritePosInBlockCircularBuffer + 1) % A.mSizeBlockCircularBuffer }

/-! ## The search for the start tokens -/

def ComputeStatsStartTokens (t : ℕ) (A : Analysis F) : Analysis F :=
  let L := A.lane t
  -- energy mean in the alphabet frequency region
  let energyBlock : F := forUp 0 (L.mEndBin - L.mBeginBin + 1).toNat (fun i energyBlock =>
    energyBlock + cell A.mSpectralAnalysis.mSpecMag (L.mBeginBin + i)) (Floats.lit 0)
  let energyBlock := energyBlock / ofInt (L.mEndBin - L.mBeginBin + 1)
  { A with mEnergyRatios := forUp 0 mNumTones (fun i mEnergyRatios =>
      let evalToneBin := L.mFreqsBins i
      let mEvalToneMags := fun n : ℕ => cell A.mSpectralAnalysis.mSpecMag (evalToneBin - mBinWidth + n)
      let sum : D := Floats.toDouble (Globals.sum mEvalToneMags mSizeTokenBinAnal)
      let energyTone := sum / Doubles.lit mSizeTokenBinAnal
      Function.update mEnergyRatios i (Floats.ofDouble
        (Doubles.lit 20 * Doubles.log10 (energyTone / Floats.toDouble energyBlock)))) A.mEnergyRatios }

/-- The exchange sort of the tones: `mEnergyRatiosSorted` and `mEnergyRatiosIdx`, by decreasing value. -/
def sortTones (lt : F → F → Bool) (size : ℕ) (a : ℕ → F) : (ℕ → F) × (ℕ → ℕ) :=
  forUp 0 (size - 1) (fun c st =>
    forUp 0 (size - c - 1) (fun d (sorted, idx) =>
      if lt (sorted d) (sorted (d + 1)) then
        (Function.update (Function.update sorted d (sorted (d + 1))) (d + 1) (sorted d),
          Function.update (Function.update idx d (idx (d + 1))) (d + 1) (idx d))
      else (sorted, idx)) st) (a, id)

/-- Frames of the first half of the window whose strongest tone is the first tone of the first start token. -/
def firstTokenRepetitions (A : Analysis F) (t : ℕ) : ℤ :=
  forUp 0 (A.mSizeBlockCircularBuffer / 2) (fun i n =>
    let posIdx := A.blockPos t i
    if (A.lane t).mBlockEnergyRatiosTokenIdx posIdx = idxTonesFrontDoorToken1.1 then n + 1 else n) 0

/-- Frames of the second half one of whose two strongest tones is the first tone of the second start token. -/
def secondTokenRepetitions (A : Analysis F) (t : ℕ) : ℤ :=
  forUp (A.mSizeBlockCircularBuffer / 2) A.mSizeBlockCircularBuffer (fun i n =>
    let posIdx := A.blockPos t i
    if (A.lane t).mBlockEnergyRatiosTokenIdx posIdx = idxTonesFrontDoorToken2.1 ∨
        (A.lane t).mBlockEnergyRatiosTokenIdx2 posIdx = idxTonesFrontDoorToken2.1 then n + 1 else n) 0

/-- `mReadPosInBlockCircularBuffer = (mReadPosInBlockCircularBuffer + 1) % mSizeBlockCircularBuffer` -/
def advanceReadPos (t : ℕ) (A : Analysis F) : Analysis F :=
  A.setLane t fun L =>
    { L with mReadPosInBlockCircularBuffer :=
        (L.mReadPosInBlockCircularBuffer + 1) % A.mSizeBlockCircularBuffer }

/-- What both searches do when the start tokens are found: the message begins at the write position. -/
def beginMessage (t : ℕ) (A : Analysis F) : Analysis F :=
  { A.setLane t (fun L => { L with mReadPosInBlockCircularBuffer := A.mWritePosInBlockCircularBuffer }) with
    mEndStartTokenPosInBlockCircularBuffer := A.mWritePosInBlockCircularBuffer
    mAccumulatedDecodingFrames := 0 }

/-- `while (getSizeFilledBlockCircularBuffer() >= mSizeBlockCircularBuffer - 1)`, for at most `fuel` rounds. A round
that does not return takes one frame off the fill level, so for rings of two frames or more a second round never
happens. -/
def searchLoop (found : ℕ → Analysis F → Bool) (t : ℕ) : ℕ → Analysis F → Bool × Analysis F
  | 0, A => (false, A)
  | fuel + 1, A =>
    if (A.getSizeFilledBlockCircularBuffer t : ℤ) ≥ A.mSizeBlockCircularBuffer - 1 then
      if found t A then (true, beginMessage t A) else searchLoop found t fuel (advanceReadPos t A)
    else (false, A)

/-- The window holds both start tokens. -/
def startFound (t : ℕ) (A : Analysis F) : Bool :=
  -- only continue if a long first token is found
  if A.firstTokenRepetitions t ≥ (A.mSizeBlockCircularBuffer / 2 : ℕ) - A.mnToleranceFrames then
    decide (A.secondTokenRepetitions t ≥ (A.mSizeBlockCircularBuffer / 2 : ℕ) - A.mnToleranceFrames * 2)
  else false

/-- Rank the tones of the frame and note the four strongest. -/
def rankTones (t : ℕ) (A : Analysis F) : Analysis F :=
  let A := ComputeStatsStartTokens t A
  let mEnergyRatiosIdx := (sortTones Floats.lt mNumTones A.mEnergyRatios).2
  let pos := A.mWritePosInBlockCircularBuffer % A.mSizeBlockCircularBuffer
  A.setLane t fun L =>
    { L with
      mBlockEnergyRatiosTokenIdx := Function.update L.mBlockEnergyRatiosTokenIdx pos (mEnergyRatiosIdx 0)
      mBlockEnergyRatiosTokenIdx2 := Function.update L.mBlockEnergyRatiosTokenIdx2 pos (mEnergyRatiosIdx 1)
      mBlockEnergyRatiosTokenIdx3 := Function.update L.mBlockEnergyRatiosTokenIdx3 pos (mEnergyRatiosIdx 2)
      mBlockEnergyRatiosTokenIdx4 := Function.update L.mBlockEnergyRatiosTokenIdx4 pos (mEnergyRatiosIdx 3) }

/-- One round of the loop over the modes; the write position moves in the first one. -/
def searchMode (t : ℕ) (A : Analysis F) : Bool × Analysis F :=
  let A := rankTones t A
  let A := if t = 0 then A.advanceWritePos else A
  searchLoop startFound t A.mSizeBlockCircularBuffer A

/-- `for (int t = 0; t < lanes; t++)`, from `t` on, with `return 1+t` where the start tokens are found. -/
def searchModes : ℕ → ℕ → Analysis F → ℤ × Analysis F
  | 0, _, A => (0, A)
  | lanes + 1, t, A =>
    let (found, A) := searchMode t A
    if found then (1 + t, A) else searchModes lanes (t + 1) A

/-- `AnalyzeStartTokens(audioBuffer)` of a decoder that listens to this number of modes. -/
def AnalyzeStartTokens (lanes : ℕ) (audioBuffer : ℕ → F) (A : Analysis F) : ℤ × Analysis F :=
  searchModes lanes 0 (storeSpectrum audioBuffer A)

/-! ## Tokens -/

/-- `Globals::nBinsOffsetFor...MultiTone` of a mode. -/
def nBinsOffset (g : Globals F) (mode : ℤ) : ℤ :=
  if mode = DECODING_MODE_NONAUDIBLE then g.nBinsOffsetForNonAudibleMultiTone
  else if mode = DECODING_MODE_AUDIBLE then g.nBinsOffsetForAudibleMultiTone
  else if mode = DECODING_MODE_COMPRESSION then g.nBinsOffsetForCompressionMultiTone
  else if mode = DECODING_MODE_CUSTOM then g.nBinsOffsetForCustomMultiTone
  else 0

/-- `Globals::getIdxTokenFromIdxsTones...MultiTone` of a mode. -/
def idxToken (mode idx1 idx2 : ℤ) : ℤ :=
  if mode = DECODING_MODE_NONAUDIBLE then getIdxTokenFromIdxsTonesNonAudibleMultiTone idx1 idx2
  else if mode = DECODING_MODE_AUDIBLE then getIdxTokenFromIdxsTonesAudibleMultiTone idx1 idx2
  else if mode = DECODING_MODE_COMPRESSION then getIdxTokenFromIdxsTonesCompressionMultiTone idx1 idx2
  else if mode = DECODING_MODE_CUSTOM then getIdxTokenFromIdxsTonesCustomMultiTone idx1 idx2
  else 0

/-- The bin that `ComputeStats` evaluates for tone `i`. -/
def evalToneBin (g : Globals F) (mode mDecoding : ℤ) (L : Lane F) (i : ℕ) : ℤ :=
  if mDecoding.tmod 3 = 1 then L.mFreqsBins i + nBinsOffset g mode
  else if mDecoding.tmod 3 = 2 then L.mFreqsBins i + nBinsOffset g mode * 2
  else L.mFreqsBins i

/-- The energy mean over the block in the alphabet frequency region. -/
def energyBlock (A : Analysis F) (t : ℕ) : D :=
  let L := A.lane t
  let energyBlock := forUp 0 (A.mSizeBlockCircularBuffer / 2) (fun k energyBlock =>
    forUp 0 (L.mEndBin - L.mBeginBin + 1).toNat (fun i energyBlock =>
      energyBlock + Floats.toDouble (cell (A.mBlockSpecMag (A.blockPos t k)) (L.mBeginBin + i))) energyBlock)
    (Doubles.lit 0)
  energyBlock / (Doubles.lit (L.mEndBin - L.mBeginBin + 1 : ℤ) * Doubles.lit (A.mSizeBlockCircularBuffer / 2 : ℕ))

/-- The sum of the magnitudes around the bin of tone `i` in frame `k` of the block. -/
def toneSum (g : Globals F) (mode mDecoding : ℤ) (A : Analysis F) (t k i : ℕ) : D :=
  let bin := evalToneBin g mode mDecoding (A.lane t) i
  let mEvalToneMags := fun n : ℕ => cell (A.mBlockSpecMag (A.blockPos t k)) (bin - mBinWidth + n)
  Floats.toDouble (Globals.sum mEvalToneMags mSizeTokenBinAnal)

/-- The energies of the tones in frame `k` of the block. -/
def frameStats (g : Globals F) (mode mDecoding : ℤ) (energyBlock : D) (t k : ℕ) (A : Analysis F) : Analysis F :=
  let (mEnergy, mEnergyRatios) := forUp 0 mNumTones (fun i (mEnergy, mEnergyRatios) =>
    let sum : D := toneSum g mode mDecoding A t k i
    let energyToken := sum / Doubles.lit mSizeTokenBinAnal
    (Function.update mEnergy i (Floats.ofDouble (sum * Doubles.lit A.mSpectralAnalysis.mSpecSize /
        Floats.toDouble (ofInt (A.mSizeBlockCircularBuffer / 2 : ℕ) : F))),
      Function.update mEnergyRatios i (Floats.ofDouble
        (Doubles.lit 20 * Doubles.log10 (energyToken / energyBlock))))) (A.mEnergy, A.mEnergyRatios)
  { A with mEnergy := mEnergy, mEnergyRatios := mEnergyRatios }

/-- Note the two strongest tones of frame `k` of the block. -/
def noteTones (t k : ℕ) (A : Analysis F) : Analysis F :=
  let idx_maxEnergyRatios := maxValueIdx floatGt A.mEnergyRatios mNumTones
  let idx_secondEnergyRatios := secondValueIdx floatGt A.mEnergyRatios mNumTones
  let s := A.blockPos t k
  let p := { (A.lane t).mBlockTokenStatistics s with
    idxToneMax := idx_maxEnergyRatios
    idxToneSecond := idx_secondEnergyRatios
    energyRatioToneMax := A.mEnergyRatios idx_maxEnergyRatios
    energyRatioToneSecond := A.mEnergyRatios idx_secondEnergyRatios
    energyToken := A.mEnergy idx_maxEnergyRatios + A.mEnergy idx_secondEnergyRatios }
  { A.setLane t (fun L => { L with
      mBlockTokenStatistics := Function.update L.mBlockTokenStatistics s p }) with
    mBlockEnergyRatiosMaxToneIdx := Function.update A.mBlockEnergyRatiosMaxToneIdx s idx_maxEnergyRatios
    mBlockEnergyRatiosSecondToneIdx := Function.update A.mBlockEnergyRatiosSecondToneIdx s idx_secondEnergyRatios }

def ComputeStats (g : Globals F) (mode mDecoding : ℤ) (t : ℕ) (A : Analysis F) : Analysis F :=
  let energyBlock := A.energyBlock t
  forUp 0 (A.mSizeBlockCircularBuffer / 2) (fun k A =>
    noteTones t k (frameStats g mode mDecoding energyBlock t k A)) A

/-- The votes of the frames of the block, two for each frame. -/
def mToneRepetitions (t : ℕ) (A : Analysis F) : ℕ → ℤ :=
  forUp 0 (A.mSizeBlockCircularBuffer / 2) (fun i reps =>
    let s := A.blockPos t i
    let idx := (A.mBlockEnergyRatiosMaxToneIdx s).toNat
    let reps := Function.update reps idx (reps idx + 1)
    let idx := (A.mBlockEnergyRatiosSecondToneIdx s).toNat
    Function.update reps idx (reps idx + 1)) (fun _ => 0)

/-- The token and the energy ratio of each frame of the block. -/
def noteTokens (mode : ℤ) (t : ℕ) (A : Analysis F) : Analysis F :=
  forUp 0 (A.mSizeBlockCircularBuffer / 2) (fun i A =>
    let s := A.blockPos t i
    A.setLane t fun L =>
      let p := L.mBlockTokenStatistics s
      let p := { p with
        idxToken := idxToken mode p.idxToneMax p.idxToneSecond
        energyRatioToken := (p.energyRatioToneMax + p.energyRatioToneSecond) / Floats.lit 2 }
      { L with mBlockTokenStatistics := Function.update L.mBlockTokenStatistics s p }) A

/-- The sums of the energy ratios and the energies of the frames that agree with the vote. -/
def agreement (max : ℤ) (t : ℕ) (A : Analysis F) : F × F :=
  forUp 0 (A.mSizeBlockCircularBuffer / 2) (fun i (prob, energy) =>
    let p := (A.lane t).mBlockTokenStatistics (A.blockPos t i)
    if p.idxToken = max then (prob + p.energyRatioToken, energy + p.energyToken) else (prob, energy))
    (Floats.lit 0, Floats.lit 0)

/-- Move the read position behind the block. -/
def consumeBlock (t : ℕ) (A : Analysis F) : Analysis F :=
  let acc := A.mAccumulatedDecodingFrames + A.mSizeBlockCircularBuffer
  let offset := (acc + 1) / 2
  { A.setLane t (fun L => { L with mReadPosInBlockCircularBuffer :=
        (A.mEndStartTokenPosInBlockCircularBuffer + offset) % A.mSizeBlockCircularBuffer }) with
    mAccumulatedDecodingFrames := acc }

/-- The body of the loop of `AnalyzeToken`, which always returns. -/
def decodeBlock (g : Globals F) (mode mDecoding : ℤ) (t : ℕ) (A : Analysis F) : ℤ × Analysis F :=
  let A := ComputeStats g mode mDecoding t A
  let reps := mToneRepetitions t A
  let A := noteTokens mode t A
  let max1 := maxValueIdx intGt reps mNumTones
  let max2 := secondValueIdx intGt reps mNumTones
  let max := idxToken mode max1 max2
  let (prob, energy) := agreement max t A
  let half : F := ofInt (A.mSizeBlockCircularBuffer / 2 : ℕ)
  (max, consumeBlock t { A with
    mConfidenceEnergyRatios := A.mConfidenceEnergyRatios + prob / half
    mReceivedOxysVolume := A.mReceivedOxysVolume + energy / half
    mConfidenceRepetitions := A.mConfidenceRepetitions +
      (ofInt (reps max1) + ofInt (reps max2)) / ofInt A.mSizeBlockCircularBuffer })

/-- `AnalyzeToken(audioBuffer, mode)`, on lane `t`. -/
def AnalyzeToken (g : Globals F) (mode mDecoding : ℤ) (t : ℕ) (audioBuffer : ℕ → F) (A : Analysis F) :
    ℤ × Analysis F :=
  let A := advanceWritePos (storeSpectrum audioBuffer A)
  if A.getSizeFilledBlockCircularBuffer t ≥ A.mSizeBlockCircularBuffer / 2 then decodeBlock g mode mDecoding t A
  else (-1, A)

end Analysis

end Undertone
