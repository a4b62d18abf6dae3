import Undertone.Globals
import Undertone.ReedSolomon.Message

/-!
# The encoders

The symbols that `EncodeDataToAudioBuffer` of the multi-tone encoders transmits, and the two frequencies of each. The
four classes differ in the globals they read; `EncoderCustomMultiTone` reads the hop offset of the non-audible mode.
-/

namespace Undertone

open CountedLoop Globals

inductive EncoderClass
  | AudibleMultiTone
  | NonAudibleMultiTone
  | CompressionMultiTone
  | CustomMultiTone
  deriving DecidableEq

structure Encoder (F : Type) where
  cls : EncoderClass
  mSampleRate : F
  mWindowSize : ℕ
  mReedSolomon : ReedSolomon.Codec

namespace Encoder

variable {F D : Type} [Doubles D] [Floats F D]

/-- The constructor, run on memory that `new` left as it was. -/
def new (memReedSolomon : ReedSolomon) (c : EncoderClass) (samplingRate : F) (windowSize : ℕ) : Encoder F where
  cls := c
  mSampleRate := samplingRate
  mWindowSize := windowSize
  mReedSolomon := .new memReedSolomon

/-! ## Symbols -/

/-- The sum of `digits[2..10]` modulo the number of tokens. -/
def checkDigit (digits : List ℤ) : ℤ :=
  (forUp numFrontDoorTokens (numFrontDoorTokens + numWordTokens) (fun i sum => sum + digits.getD i 0) 0).tmod
    numTokensAll

/-- The front-door symbols and the user symbols. -/
def userDigits (stringToEncode : List Char) : List ℤ :=
  [getIdxFromChar frontDoorTokens.1, getIdxFromChar frontDoorTokens.2] ++ stringToEncode.map getIdxFromChar

/-- The symbols to transmit, in `GetCode` order; `none` where the check digit sums past the end of `digits`. -/
def digits (stringToEncode : List Char) (e : Encoder F) : Option (List ℤ × Encoder F) :=
  let digits := userDigits stringToEncode
  if digits.length < numFrontDoorTokens + numWordTokens then none
  else
    let (code, codec) := e.mReedSolomon.send (digits ++ [checkDigit digits])
    some (code, { e with mReedSolomon := codec })

omit [Doubles D] [Floats F D] in
theorem digits_keeps {e e' : Encoder F} {stringToEncode : List Char} {code : List ℤ}
    (h : e.digits stringToEncode = some (code, e')) : e' = { e with mReedSolomon := e'.mReedSolomon } := by
  unfold digits at h
  simp only at h
  split at h
  · exact absurd h (by simp)
  · obtain ⟨-, rfl⟩ := Prod.mk.inj (Option.some.inj h)
    rfl

/-! ## Frequencies -/

/-- `Globals::getToneFromIdx...MultiTone` of the class. -/
def getToneFromIdx (c : EncoderClass) (g : Globals F) : ℤ → F → ℕ → F :=
  match c with
  | .AudibleMultiTone => getToneFromIdxAudibleMultiTone
  | .NonAudibleMultiTone => getToneFromIdxNonAudibleMultiTone g
  | .CompressionMultiTone => getToneFromIdxCompressionMultiTone g
  | .CustomMultiTone => getToneFromIdxCustomMultiTone g

/-- `Globals::getFreqsFromIdx...MultiTone` of the class. -/
def getFreqsFromIdx (c : EncoderClass) (g : Globals F) (idx : ℤ) (samplingRate : F) (windowSize : ℕ) : F × F :=
  let idxs := getIdxsFromIdx idx
  (getToneFromIdx c g idxs.1 samplingRate windowSize, getToneFromIdx c g idxs.2 samplingRate windowSize)

/-- The hop offset that the class adds. -/
def freqOffset (c : EncoderClass) (g : Globals F) : F :=
  match c with
  | .AudibleMultiTone => g.freqOffsetForAudibleMultiTone
  | .NonAudibleMultiTone => g.freqOffsetForNonAudibleMultiTone
  | .CompressionMultiTone => g.freqOffsetForCompressionMultiTone
  | .CustomMultiTone => g.freqOffsetForNonAudibleMultiTone

/-- A tone of the `i`-th symbol, with the hop of the symbols after the start tokens. -/
def hop (c : EncoderClass) (g : Globals F) (i : ℕ) (freq : F) : F :=
  if i > 1 then
    let n := i - 1  -- so the first token after the start tokens is `n = 1`
    if n % 3 = 1 then freq + freqOffset c g
    else if n % 3 = 2 then freq + freqOffset c g * Floats.lit 2
    else freq
  else freq

/-- `mCurrentFreqs` for the digit at position `i`. -/
def mCurrentFreqs (g : Globals F) (e : Encoder F) (digit : ℤ) (i : ℕ) : F × F :=
  let freqs := getFreqsFromIdx e.cls g digit e.mSampleRate e.mWindowSize
  (hop e.cls g i freqs.1, hop e.cls g i freqs.2)

end Encoder

end Undertone
