import Undertone.Decoder.Frames
import Undertone.Decoder.SingleTone
import Undertone.Lib.Run
import Undertone.ReedSolomon.Message

/-!
# The decoders

The state of a `Decoder`, the seven classes, their `DecodeAudioBuffer` and `GetDecodedData`, and the constructors.
The state is in three parts that do not overlap: the ring of samples, what the analysis of frames works on (`Core`),
and the codec. `DecodeAudioBuffer` never touches the codec, and `GetDecodedData` of the other two only empties
`mDecodedValues`.
-/

namespace Undertone

open CountedLoop Globals

inductive DecoderClass
  | Audible
  | NonAudible
  | AudibleMultiTone
  | NonAudibleMultiTone
  | CompressionMultiTone
  | CustomMultiTone
  | AllMultiTone
  deriving DecidableEq, Inhabited

namespace DecoderClass

def isMultiTone : DecoderClass → Bool
  | Audible | NonAudible => false
  | _ => true

/-- The number of modes a decoder listens to. -/
def lanes : DecoderClass → ℕ
  | AllMultiTone => 3
  | _ => 1

/-- `mDecodingMode` after construction. -/
def mode : DecoderClass → ℤ
  | Audible | AudibleMultiTone => DECODING_MODE_AUDIBLE
  | NonAudible | NonAudibleMultiTone => DECODING_MODE_NONAUDIBLE
  | CompressionMultiTone => DECODING_MODE_COMPRESSION
  | CustomMultiTone => DECODING_MODE_CUSTOM
  | AllMultiTone => -1

end DecoderClass

/-! ## The analysis step -/

structure Core (F : Type) where
  mDecoding : ℤ
  mDecodingMode : ℤ
  mDecodedValues : List ℤ
  analysis : Analysis F
  deriving Inhabited

namespace Core

variable {F D : Type} [Doubles D] [Floats F D] [CFFTOoura F]

/-- The virtual `AnalyzeStartTokens`. -/
def AnalyzeStartTokens (c : DecoderClass) (audioBuffer : ℕ → F) (C : Core F) : ℤ × Analysis F :=
  match c with
  | .Audible | .NonAudible => SingleTone.AnalyzeStartTokens audioBuffer C.analysis
  | _ => C.analysis.AnalyzeStartTokens c.lanes audioBuffer

/-- The virtual `AnalyzeToken`; the decoder of all modes passes `mDecodingMode`. -/
def AnalyzeToken (c : DecoderClass) (g : Globals F) (audioBuffer : ℕ → F) (C : Core F) : ℤ × Analysis F :=
  match c with
  | .Audible => SingleTone.AnalyzeToken .DecoderAudible C.mDecoding C.mDecodedValues audioBuffer C.analysis
  | .NonAudible => SingleTone.AnalyzeToken .DecoderNonAudible C.mDecoding C.mDecodedValues audioBuffer C.analysis
  | .AllMultiTone =>
    C.analysis.AnalyzeToken g C.mDecodingMode C.mDecoding C.mDecodingMode.toNat audioBuffer
  | _ => C.analysis.AnalyzeToken g c.mode C.mDecoding 0 audioBuffer

/-- The test on what `AnalyzeStartTokens` returns. -/
def isStart (c : DecoderClass) (ret : ℤ) : Bool :=
  match c with
  | .AllMultiTone => decide (ret ≥ 1)
  | _ => decide (ret = 1)

/-- What the multi-tone decoders reset when the start tokens are found. -/
def resetConfidence (A : Analysis F) : Analysis F :=
  { A with
    mConfidenceEnergyRatios := Floats.lit 0
    mConfidenceRepetitions := Floats.lit 0
    mConfidence := Floats.lit 0
    mReceivedOxysVolume := Floats.lit 0 }

/-- The averages that the multi-tone decoders form at the end of a message. -/
def finishConfidence (A : Analysis F) : Analysis F :=
  { A with
    mConfidenceEnergyRatios := A.mConfidenceEnergyRatios / ofInt numMessageTokens
    mConfidenceRepetitions := A.mConfidenceRepetitions / ofInt numMessageTokens / Floats.lit 2 + Floats.lit 0.5
    mReceivedOxysVolume := A.mReceivedOxysVolume / ofInt numMessageTokens }

/-- The start tokens were found. -/
def begin (c : DecoderClass) (ret : ℤ) (A : Analysis F) (C : Core F) : Core F where
  mDecoding := 1
  mDecodingMode := if c = .AllMultiTone then ret - 1 else C.mDecodingMode
  mDecodedValues := C.mDecodedValues ++ [Analysis.idxFrontDoorToken1, Analysis.idxFrontDoorToken2]
  analysis := if c.isMultiTone then resetConfidence A else A

/-- A token was found. -/
def append (ret : ℤ) (A : Analysis F) (C : Core F) : Core F :=
  { C with mDecoding := C.mDecoding + 1, mDecodedValues := C.mDecodedValues ++ [ret], analysis := A }

/-- The message is complete. -/
def finish (c : DecoderClass) (C : Core F) : Core F :=
  { C with mDecoding := 0, analysis := if c.isMultiTone then finishConfidence C.analysis else C.analysis }

/-- What the loop of `DecodeAudioBuffer` does with a frame: the value it returns, if it returns. -/
def step (c : DecoderClass) (g : Globals F) (mAnalBufferFloat : ℕ → F) (C : Core F) : Option ℤ × Core F :=
  if C.mDecoding = 0 then
    let (ret, A) := C.AnalyzeStartTokens c mAnalBufferFloat
    if isStart c ret then (some (-2), C.begin c ret A) else (none, { C with analysis := A })
  else if C.mDecoding > 0 ∧ C.mDecoding ≤ numMessageTokens then
    let (ret, A) := C.AnalyzeToken c g mAnalBufferFloat
    if ret ≥ 0 then (some ret, C.append ret A) else (none, { C with analysis := A })
  else if C.mDecoding > numMessageTokens then (some (-3), C.finish c)
  else (none, C)

end Core

/-! ## The decoder -/

structure Decoder (F : Type) where
  cls : DecoderClass
  frames : FrameBuffer F
  core : Core F
  mReedSolomon : ReedSolomon.Codec
  mDecodedValuesOrig : ℕ → ℤ
  mConfidenceCorrection : F
  deriving Inhabited

namespace Decoder

variable {F D : Type} [Doubles D] [Floats F D] [CFFTOoura F]

def mMessageLength : ℕ := numFrontDoorTokens + numWordTokens + 1

def sizeTokensNoCorrection : ℕ := numTotalTokens - numCorrectionTokens

/-- `DecodeAudioBuffer(audioBuffer, size)` -/
def DecodeAudioBuffer (g : Globals F) (audioBuffer : ℕ → F) (size : ℕ) (d : Decoder F) : ℤ × Decoder F :=
  let (ret, frames, core) := FrameBuffer.feed (Core.step d.cls g) audioBuffer size (d.frames, d.core)
  (ret.getD (-1), { d with frames := frames, core := core })

/-- The check token of the message. -/
def checkToken (message : List ℤ) : ℤ :=
  (forUp numFrontDoorTokens (numFrontDoorTokens + numWordTokens) (fun i t => t + message.getD i 0) 0).tmod
    Analysis.mNumTokens

/-- The characters of the message, without the front-door tokens and the check token. -/
def decodedString (message : List ℤ) : List Char :=
  (List.range (message.length - 1 - numFrontDoorTokens)).map fun i =>
    getCharFromIdx (message.getD (i + numFrontDoorTokens) 0)

/-- The values of the message that the correction left as they were. -/
def countEqual (message : List ℤ) (mDecodedValuesOrig : ℕ → ℤ) : ℕ :=
  forUp 0 sizeTokensNoCorrection (fun i count =>
    if message.getD i 0 = mDecodedValuesOrig i then count + 1 else count) 0

/-- `GetDecodedData(stringDecoded)`: the value returned and the characters written, with the terminating one; `none`
where `mDecodedValues` is read past its end. -/
def GetDecodedData (d : Decoder F) : Option (ℤ × List Char × Decoder F) :=
  let values := d.core.mDecodedValues
  if values.length < sizeTokensNoCorrection then none
  else
    (d.mReedSolomon.receive mMessageLength values).map fun codec =>
      let mDecodedValuesOrig := forUp 0 sizeTokensNoCorrection (fun i orig =>
        Function.update orig i (values.getD i 0)) d.mDecodedValuesOrig
      let message := codec.1.GetMessage
      let checkTokenReceived := message.getD (numFrontDoorTokens + numWordTokens) 0
      let messageOk : ℤ := if checkToken message ≠ checkTokenReceived then -1 else 1
      let len : ℤ := message.length - 1
      ((len - numFrontDoorTokens) * messageOk, decodedString message ++ ['\x00'],
        { d with
          core := { d.core with mDecodedValues := [] }
          mReedSolomon := codec
          mDecodedValuesOrig := if d.cls.isMultiTone then mDecodedValuesOrig else d.mDecodedValuesOrig
          mConfidenceCorrection :=
            if d.cls.isMultiTone then ofInt (countEqual message mDecodedValuesOrig) / ofInt sizeTokensNoCorrection
            else d.mConfidenceCorrection })

/-! ## Calls -/

/-- The calls of the program that use a decoder. The globals are those at the time of the call. -/
inductive Call (F : Type)
  | DecodeAudioBuffer (g : Globals F) (audioBuffer : ℕ → F) (size : ℕ)
  | GetDecodedData

inductive Answer
  | event (ret : ℤ)
  | data (ret : ℤ) (stringDecoded : List Char)

def call (c : Call F) (d : Decoder F) : Option (Answer × Decoder F) :=
  match c with
  | .DecodeAudioBuffer g audioBuffer size =>
    let (ret, d) := d.DecodeAudioBuffer g audioBuffer size
    some (.event ret, d)
  | .GetDecodedData => d.GetDecodedData.map fun (ret, s, d) => (.data ret s, d)

/-! ## Construction -/

/-- The hop size for a sampling rate. -/
def hopSize (samplingRate : F) : ℕ :=
  if Floats.eq samplingRate (Floats.lit 44100) then 256
  else if Floats.eq samplingRate (Floats.lit 22050) then 128
  else if Floats.eq samplingRate (Floats.lit 11050) then 64
  else 64

/-- The tone (or token) frequencies of a lane. -/
def laneFreq (c : DecoderClass) (g : Globals F) (t : ℕ) : ℤ → F → ℕ → F :=
  match c, t with
  | .Audible, _ => getFreqFromIdxAudible
  | .NonAudible, _ => getFreqFromIdxNonAudible
  | .AudibleMultiTone, _ => getToneFromIdxAudibleMultiTone
  | .NonAudibleMultiTone, _ => getToneFromIdxNonAudibleMultiTone g
  | .CompressionMultiTone, _ => getToneFromIdxCompressionMultiTone g
  | .CustomMultiTone, _ => getToneFromIdxCustomMultiTone g
  | .AllMultiTone, 0 => getToneFromIdxAudibleMultiTone
  | .AllMultiTone, 1 => getToneFromIdxNonAudibleMultiTone g
  | .AllMultiTone, _ => getToneFromIdxCompressionMultiTone g

/-- The parts of the constructors that set up one mode. -/
def newLane (mem : Lane F) (freq : ℤ → F → ℕ → F) (samplingRate mFreq2Bin : F) (windowSize mNumTones n : ℕ) :
    Lane F where
  mReadPosInBlockCircularBuffer := 0
  mFreqsBins := forUp 0 mNumTones (fun i bins =>
    Function.update bins i (round (freq i samplingRate windowSize * mFreq2Bin))) mem.mFreqsBins
  mBeginBin := round (freq 0 samplingRate windowSize * mFreq2Bin)
  mEndBin := round (freq (mNumTones - 1 : ℤ) samplingRate windowSize * mFreq2Bin)
  mBlockEnergyRatiosTokenIdx := fun i => if i < n then -1 else mem.mBlockEnergyRatiosTokenIdx i
  mBlockEnergyRatiosTokenIdx2 := fun i => if i < n then -1 else mem.mBlockEnergyRatiosTokenIdx2 i
  mBlockEnergyRatiosTokenIdx3 := fun i => if i < n then -1 else mem.mBlockEnergyRatiosTokenIdx3 i
  mBlockEnergyRatiosTokenIdx4 := fun i => if i < n then -1 else mem.mBlockEnergyRatiosTokenIdx4 i
  mBlockTokenStatistics := fun i =>
    if i < n then ⟨0, Floats.lit 0, 0, 0, Floats.lit 0, Floats.lit 0, Floats.lit 0⟩ else mem.mBlockTokenStatistics i

/-- The analysis part of the constructors, run on memory that `new` left as it was. -/
def newAnalysis (mem : Analysis F) (c : DecoderClass) (g : Globals F) (samplingRate : F) (windowSize : ℕ) :
    Analysis F :=
  let hop := hopSize samplingRate
  let mNumTones := if c.isMultiTone then Analysis.mNumTones else SingleTone.mNumTones
  let n := (Doubles.trunc (Floats.toDouble
    (samplingRate * durToken * Floats.lit 2 / ofInt hop + Floats.lit 0.5 : F))).toNat
  let mFreq2Bin := ofInt windowSize / samplingRate
  { mem with
    mSampleRate := samplingRate
    mSpectralAnalysis := SpectralAnalysis.new mem.mSpectralAnalysis .kEnergySpectrum windowSize windowSize hop
    mFreq2Bin := mFreq2Bin
    mWritePosInBlockCircularBuffer := 0
    mSizeBlockCircularBuffer := n
    mnToleranceFrames := Doubles.trunc (Doubles.lit (n / 2 : ℚ) * Doubles.lit 0.05 + Doubles.lit 0.5 : D)
    mBlockEnergyRatiosMaxToneIdx := fun i => if i < n then -1 else mem.mBlockEnergyRatiosMaxToneIdx i
    mBlockEnergyRatiosSecondToneIdx := fun i => if i < n then -1 else mem.mBlockEnergyRatiosSecondToneIdx i
    mEndStartTokenPosInBlockCircularBuffer := 0
    mAccumulatedDecodingFrames := 0
    mSumPerFrame := []
    mConfidenceEnergyRatios := Floats.lit 0
    mConfidenceRepetitions := Floats.lit 0
    mConfidence := Floats.lit 0
    mReceivedOxysVolume := Floats.lit 0
    lane := fun t =>
      if t < c.lanes then
        newLane (mem.lane t) (laneFreq c g t) samplingRate mFreq2Bin windowSize mNumTones n
      else mem.lane t }

omit [CFFTOoura F] in
/-- The bins of a mode after construction. -/
theorem newAnalysis_bins (mem : Analysis F) {c : DecoderClass} (hc : c.isMultiTone = true) (g : Globals F)
    (samplingRate : F) (windowSize : ℕ) {t : ℕ} (ht : t < c.lanes) :
    (∀ i < Analysis.mNumTones, ((newAnalysis mem c g samplingRate windowSize).lane t).mFreqsBins i =
        round (laneFreq c g t i samplingRate windowSize * (ofInt windowSize / samplingRate))) ∧
      ((newAnalysis mem c g samplingRate windowSize).lane t).mBeginBin =
        round (laneFreq c g t 0 samplingRate windowSize * (ofInt windowSize / samplingRate)) ∧
      ((newAnalysis mem c g samplingRate windowSize).lane t).mEndBin =
        round (laneFreq c g t (Analysis.mNumTones - 1 : ℤ) samplingRate windowSize *
          (ofInt windowSize / samplingRate)) := by
  refine ⟨fun i hi => ?_, ?_, ?_⟩
  · simp only [newAnalysis, if_pos ht, hc, if_true, newLane]
    rw [forUp_fill 0 Analysis.mNumTones]
    exact if_pos ⟨Nat.zero_le i, hi⟩
  · simp only [newAnalysis, if_pos ht, newLane]
  · simp only [newAnalysis, if_pos ht, hc, if_true, newLane]

/-- The constructor of class `c`, run on memory that `new` left as it was, with the globals after
`Globals::init(windowSize, samplingRate)`. -/
def new (mem : Decoder F) (memReedSolomon : ReedSolomon) (c : DecoderClass) (g : Globals F) (samplingRate : F)
    (windowSize : ℕ) : Decoder F where
  cls := c
  frames :=
    { mReadPosInFrameCircularBuffer := 0
      mWritePosInFrameCircularBuffer := 0
      mCircularBufferFloat := fun i =>
        if i < windowSize * 4 then Floats.lit 0 else mem.frames.mCircularBufferFloat i
      mAnalBufferFloat := fun i => if i < windowSize then Floats.lit 0 else mem.frames.mAnalBufferFloat i
      mWindowSize := windowSize
      mHopSize := hopSize samplingRate }
  core :=
    { mDecoding := 0
      mDecodingMode := c.mode
      mDecodedValues := []
      analysis := newAnalysis mem.core.analysis c (g.init windowSize) samplingRate windowSize }
  mReedSolomon := .new memReedSolomon
  mDecodedValuesOrig := mem.mDecodedValuesOrig
  mConfidenceCorrection := Floats.lit 0

end Decoder

end Undertone
