import Undertone.Encoder
import Undertone.ReedSolomon.Transmit

/-!
# The samples of a transmission

`EncodeDataToAudioBuffer` of the multi-tone encoders as it fills `mAudioBufferEncodedString`, and the reading of that
buffer piece by piece. Every access to an array is compared with the length of the array: a call with an access outside
has no outcome. The four classes differ only in the tones and in their loudness.
-/

namespace Undertone

open CountedLoop BoundedArray Globals Encoder

/-- The functions of the C library that only the synthesis calls. -/
class Synthesis (F : Type) (D : outParam Type) [Doubles D] [Floats F D] where
  sin : D → D
  sinf : F → F
  gt : D → D → Bool

noncomputable instance : Synthesis ℝ ℝ where
  sin := Real.sin
  sinf := Real.sin
  gt x y := decide (x > y)

/-- An encoder with its audio. `mAudioSignature` holds `mnAudioSignatureSamples` samples. -/
structure AudioEncoder (F : Type) extends Encoder F where
  mBufferSize : ℕ
  mAudioBufferEncodedString : ℕ → F
  mNumSamplesEncodedString : ℕ
  mReadIndexEncodedAudioBuffer : ℕ
  mAudioSignature : List F

/-- What a call reads besides the object and its arguments: the globals, and the numbers that `rand()` returns one
after the other. -/
structure Surroundings (F : Type) where
  globals : Globals F
  synthVolume : F
  rand : ℕ → ℤ

namespace AudioEncoder

variable {F D : Type} [Doubles D] [Floats F D]

/-- `(int)x` -/
def int (x : F) : ℤ := Doubles.trunc (Floats.toDouble x)

/-- The length of `mAudioBufferEncodedString`, ten seconds: the constructor allocates it and nothing changes it. -/
def mNumMaxSamplesEncodedString (e : AudioEncoder F) : ℕ := (int (Floats.lit 10 * e.mSampleRate)).toNat

/-- The constructor, run on memory that `new` left as it was. -/
def new (memReedSolomon : ReedSolomon) (memAudio : ℕ → F) (c : EncoderClass) (samplingRate : F)
    (buffsize windowSize : ℕ) :
    AudioEncoder F where
  toEncoder := .new memReedSolomon c samplingRate windowSize
  mBufferSize := buffsize
  mAudioBufferEncodedString := memAudio
  mNumSamplesEncodedString := 0
  mReadIndexEncodedAudioBuffer := 0
  mAudioSignature := []

/-! ## Lengths and amplitudes -/

def durFade : F := Floats.lit 0.075
def tokenAmplitude : F := Floats.lit 0.7
def pi : F := Floats.lit 3.14159265358979323846
def tailLength : F := Floats.lit 0.1
def gapLength : F := Floats.lit 0.05

def samplesPerDigit (e : AudioEncoder F) : ℕ := (int (e.mSampleRate * durToken)).toNat

def samplesForFadeBegin (e : AudioEncoder F) : ℤ := int (e.mSampleRate * durToken * durFade)

/-- The first start token fades out in half the time. -/
def samplesForFadeEnd (e : AudioEncoder F) (i : ℕ) : ℤ :=
  if i = 0 then int (e.mSampleRate * durToken * (tailLength * Floats.lit 0.5))
  else int (e.mSampleRate * durToken * tailLength)

/-- The first start token has no gap. -/
def samplesForGap (e : AudioEncoder F) (i : ℕ) : ℤ := if i = 0 then 0 else int (e.mSampleRate * durToken * gapLength)

/-- `factor` of the `i`-th symbol: the two start tokens are louder. -/
def factor (i : ℕ) : F :=
  let factor : F := Floats.ofDouble (Floats.toDouble (tokenAmplitude : F) - Doubles.lit 0.05)
  if i = 0 then Floats.ofDouble (Floats.toDouble factor + Doubles.lit 0.05)
  else if i = 1 then Floats.ofDouble (Floats.toDouble factor + Doubles.lit 0.025)
  else factor

/-- `Globals::getLoudness...MultiToneFromIdx` of the class. -/
def getLoudnessFromIdx (c : EncoderClass) (idx : ℤ) : F × F :=
  let idxs := getIdxsFromIdx idx
  match c with
  | .AudibleMultiTone => (Floats.lit 1, Floats.lit 1)
  | .NonAudibleMultiTone | .CompressionMultiTone | .CustomMultiTone =>
    (Floats.lit 0.85 + Floats.lit 0.15 * ofInt idxs.1 / ofInt (numTonesAll - 1),
      Floats.lit 0.85 + Floats.lit 0.15 * ofInt idxs.2 / ofInt (numTonesAll - 1))

def getMusicalNoteFromIdx (idx : ℤ) : F := Floats.lit 440 * Floats.pow (Floats.lit 2) (ofInt idx / Floats.lit 12)

/-- The linear fade of the robotic sounds and of the melody. -/
def fade (samplesPerDigit : ℕ) (samplesForFade : ℤ) (t : ℕ) : F :=
  if t < samplesForFade then tokenAmplitude * ofInt t / ofInt samplesForFade
  else if t > samplesPerDigit - samplesForFade then tokenAmplitude * ofInt (samplesPerDigit - t) / ofInt samplesForFade
  else tokenAmplitude

section Samples

variable [Synthesis F D]

/-- The phase one sample later. -/
def advance (mSampleRate freq : F) (phase : D) : D :=
  let two_pi : D := Doubles.lit 2 * Floats.toDouble (pi : F)
  let phase := phase + two_pi * Floats.toDouble freq * (Doubles.lit 1 / Floats.toDouble mSampleRate)
  if Synthesis.gt F phase two_pi then phase - two_pi else phase

/-- One tone for the start tokens and two for the other symbols. -/
def tones (i : ℕ) (loudness : F × F) (factor : F) (phase1 phase2 : D) : F :=
  if i < 2 then Floats.ofDouble (Floats.toDouble (Floats.lit 1 * loudness.1 * factor) * Synthesis.sin F phase1)
  else Floats.ofDouble (Floats.toDouble (Floats.lit 0.5 * loudness.1 * factor) * Synthesis.sin F phase1 +
    Floats.toDouble (Floats.lit 0.5 * loudness.2 * factor) * Synthesis.sin F phase2)

/-- The sample at `t` of the `i`-th symbol. -/
def sample (e : AudioEncoder F) (i t : ℕ) (loudness : F × F) (phase1 phase2 : D) : F :=
  let fadeEnd := e.samplesForFadeEnd i
  let gap := e.samplesForGap i
  if t < e.samplesForFadeBegin then
    tones i loudness (factor i * ofInt t / ofInt e.samplesForFadeBegin) phase1 phase2
  else if t > e.samplesPerDigit - (fadeEnd + gap) ∧ t < e.samplesPerDigit - gap then
    tones i loudness (factor i * ofInt (e.samplesPerDigit - gap - t) / ofInt fadeEnd) phase1 phase2
  else if t ≥ e.samplesPerDigit - gap then Floats.lit 0
  else tones i loudness (factor i) phase1 phase2

/-! ## Filling the buffer -/

/-- What the loop over the symbols changes. -/
structure Filling (F D : Type) where
  phase1 : D
  phase2 : D
  audio : ℕ → F
  numSamples : ℕ

/-- The samples of the `i`-th symbol. -/
def writeDigit (g : Globals F) (e : AudioEncoder F) (digit : ℤ) (i : ℕ) (st : Filling F D) : Option (Filling F D) := do
  let freqs := mCurrentFreqs g e.toEncoder digit i
  let loudness := getLoudnessFromIdx e.cls digit
  let (phase1, phase2, audio) ← forUpM 0 e.samplesPerDigit (fun t (phase1, phase2, audio) => do
    let phase1 := advance e.mSampleRate freqs.1 phase1
    let phase2 := advance e.mSampleRate freqs.2 phase2
    let audio ← put e.mNumMaxSamplesEncodedString audio (t + i * e.samplesPerDigit : ℕ)
      (sample e i t loudness phase1 phase2)
    return (phase1, phase2, audio)) (st.phase1, st.phase2, st.audio)
  return { phase1 := phase1, phase2 := phase2, audio := audio, numSamples := st.numSamples + e.samplesPerDigit }

def writeDigits (g : Globals F) (e : AudioEncoder F) (digits : List ℤ) (audio : ℕ → F) : Option (Filling F D) :=
  forUpM 0 digits.length (fun i st => do writeDigit g e (← digits[i]?) i st)
    { phase1 := Doubles.lit 0, phase2 := Doubles.lit 0, audio := audio, numSamples := 0 }

/-- A sound added to what the buffer holds at the `i`-th symbol. -/
def mixDigit (e : AudioEncoder F) (mix : ℕ → F → F) (i : ℕ) (audio : ℕ → F) : Option (ℕ → F) :=
  forUpM 0 e.samplesPerDigit (fun t audio => do
    let x ← get e.mNumMaxSamplesEncodedString audio (t + i * e.samplesPerDigit : ℕ)
    put e.mNumMaxSamplesEncodedString audio (t + i * e.samplesPerDigit : ℕ) (mix t x)) audio

def samplesForFade (e : AudioEncoder F) : ℤ := int (e.mSampleRate * durToken * durFade)

/-- The sweep of a robotic sound from the note of one random number, by the offset of another. -/
def roboticSound (e : AudioEncoder F) (synthVolume : F) (randNote randSweep : ℤ) (t : ℕ) (x : F) : F :=
  let f_start := getMusicalNoteFromIdx (randNote.tmod numTokensAll)
  let f_end := f_start + ofInt (randSweep.tmod 500 - 250)
  let delta := ofInt t / ofInt e.samplesPerDigit
  let frequency := f_start + delta * (f_end - f_start)
  let waveLength := Floats.lit 1 / frequency
  let pos := ofInt t / e.mSampleRate / waveLength
  let vol := Floats.pow (Floats.lit 10) (synthVolume / Floats.lit 20)
  Floats.lit 1 * x + vol * fade e.samplesPerDigit e.samplesForFade t * Synthesis.sinf (pos * Floats.lit 2 * pi)

/-- A note of the melody over three quarters of what is there. -/
def melodyNote (e : AudioEncoder F) (digit : ℤ) (t : ℕ) (x : F) : F :=
  Floats.lit 0.75 * x + Floats.lit 0.25 * fade e.samplesPerDigit e.samplesForFade t *
    Synthesis.sinf (Floats.lit 2 * pi * getMusicalNoteFromIdx digit * (ofInt t / e.mSampleRate))

/-- `type == 1` adds robotic sounds and `type == 2` a melody, which may be longer than the symbols. -/
def addSounds (w : Surroundings F) (type : ℤ) (melodyString : List Char) (digits : List ℤ) (e : AudioEncoder F)
    (st : Filling F D) : Option (Filling F D) := do
  if type = 1 then
    let audio ← forUpM 0 digits.length (fun i =>
      mixDigit e (roboticSound e w.synthVolume (w.rand (2 * i)) (w.rand (2 * i + 1))) i) st.audio
    return { st with audio := audio }
  else if type = 2 then
    let melodyDigits := melodyString.map getIdxFromChar
    let audio ← forUpM 0 melodyDigits.length (fun i audio => do
      let digit ← melodyDigits[i]?
      mixDigit e (melodyNote e digit) i audio) st.audio
    let numSamplesMelodyString := melodyDigits.length * e.samplesPerDigit
    return { st with
      audio := audio
      numSamples := if numSamplesMelodyString > st.numSamples then numSamplesMelodyString else st.numSamples }
  else return st

/-- `std::max(-1.f, std::min(1.f, x))` -/
def clip (x : F) : F :=
  let y := if Floats.lt x (Floats.lit 1) then x else Floats.lit 1
  if Floats.lt (Floats.lit (-1)) y then y else Floats.lit (-1)

/-- The audio signature, over at most the samples of the transmission. -/
def addSignature (e : AudioEncoder F) (st : Filling F D) : Option (Filling F D) := do
  let sizeToFill := if e.mAudioSignature.length > st.numSamples then st.numSamples else e.mAudioSignature.length
  let audio ← forUpM 0 sizeToFill (fun i audio => do
    let x ← get e.mNumMaxSamplesEncodedString audio i
    let s ← e.mAudioSignature[i]?
    put e.mNumMaxSamplesEncodedString audio i (clip (x + s))) st.audio
  return { st with audio := audio }

/-- The symbols to transmit, with every access in the arrays of the codec and in `digits`. -/
def transmit (stringToEncode : List Char) (e : AudioEncoder F) : Option (List ℤ × ReedSolomon.Codec) := do
  let digits := userDigits stringToEncode
  let sum ← forUpM numFrontDoorTokens (numFrontDoorTokens + numWordTokens)
    (fun i sum => do return sum + (← digits[i]?)) 0
  e.mReedSolomon.sendChecked (digits ++ [sum.tmod numTokensAll])

/-- `EncodeDataToAudioBuffer(stringToEncode, type, size, melodyString, melodySize)`, with the two strings as long as
their sizes say; the result is the number of samples. -/
def EncodeDataToAudioBuffer (w : Surroundings F) (stringToEncode : List Char) (type : ℤ) (melodyString : List Char)
    (e : AudioEncoder F) : Option (ℕ × AudioEncoder F) := do
  let audio := fun i => if i < e.mNumMaxSamplesEncodedString then Floats.lit 0 else e.mAudioBufferEncodedString i
  let (digits, codec) ← transmit stringToEncode e
  let st ← writeDigits w.globals e digits audio
  let st ← addSounds w type melodyString digits e st
  let st ← addSignature e st
  return (st.numSamples, { e with
    mReedSolomon := codec
    mAudioBufferEncodedString := st.audio
    mNumSamplesEncodedString := st.numSamples
    mReadIndexEncodedAudioBuffer := 0 })

end Samples

/-! ## Reading the buffer -/

/-- The loop of `GetEncodedAudioBuffer` with `n` rounds to go, from the read index: the samples that it copies. -/
def readSamples (e : AudioEncoder F) : ℕ → ℕ → Option (List F)
  | 0, _ => some []
  | n + 1, index =>
    if index ≥ e.mNumSamplesEncodedString then some []
    else do
      let x ← get e.mNumMaxSamplesEncodedString e.mAudioBufferEncodedString index
      let rest ← readSamples e n (index + 1)
      return x :: rest

/-- `GetEncodedAudioBuffer(audioBuffer)`: the samples that it writes, of which it returns the number. -/
def GetEncodedAudioBuffer (e : AudioEncoder F) : Option (List F × AudioEncoder F) := do
  let samples ← readSamples e e.mBufferSize e.mReadIndexEncodedAudioBuffer
  return (samples, { e with mReadIndexEncodedAudioBuffer := e.mReadIndexEncodedAudioBuffer + samples.length })

def ResetEncodedAudioBuffer (e : AudioEncoder F) : AudioEncoder F := { e with mReadIndexEncodedAudioBuffer := 0 }

/-- `SetAudioSignature(samplesSize, samplesBuffer)`, which keeps at most the samples of a whole transmission. -/
def SetAudioSignature (samples : List F) (e : AudioEncoder F) : AudioEncoder F :=
  { e with mAudioSignature := samples.take (int (ofInt numTotalTokens * (durToken * e.mSampleRate))).toNat }

end AudioEncoder

end Undertone
