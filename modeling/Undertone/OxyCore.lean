import Undertone.Decoder.Defs
import Undertone.Encoder

/-!
# `OxyCoreLib_api.cpp`

The object behind the interface, as far as it sets up encoders and decoders: `OXY_Configure` and
`OXY_SetCustomBaseFreq`, with the globals that both change, in the modes that transmit two tones a symbol.
-/

namespace Undertone

inductive OxyMode
  | AUDIBLE
  | NONAUDIBLE
  | COMPRESSION
  | ALL
  | CUSTOM
  deriving DecidableEq

structure OxyCore (F : Type) where
  mSampleRate : F
  mWindowSize : ℕ
  mEncoder : Encoder F
  mDecoder : Decoder F

namespace OxyCore

variable {F D : Type} [Doubles D] [Floats F D] [CFFTOoura F]

/-- The window size for a sampling rate. -/
def windowSizeFor (samplingRate : F) : ℕ :=
  if Floats.eq samplingRate (Floats.lit 48000) then 2048
  else if Floats.eq samplingRate (Floats.lit 44100) then 2048
  else if Floats.eq samplingRate (Floats.lit 22050) then 1024
  else if Floats.eq samplingRate (Floats.lit 11050) then 512
  else 256

def encoderClass : OxyMode → EncoderClass
  | .AUDIBLE => .AudibleMultiTone
  | .NONAUDIBLE | .ALL => .NonAudibleMultiTone
  | .COMPRESSION => .CompressionMultiTone
  | .CUSTOM => .CustomMultiTone

def decoderClass : OxyMode → DecoderClass
  | .AUDIBLE => .AudibleMultiTone
  | .NONAUDIBLE => .NonAudibleMultiTone
  | .COMPRESSION => .CompressionMultiTone
  | .ALL => .AllMultiTone
  | .CUSTOM => .CustomMultiTone

/-- A new encoder and then a new decoder; the constructor of each runs `Globals::init`. -/
def build (mem : Decoder F) (memReedSolomon : ReedSolomon) (mode : OxyMode) (samplingRate : F) (windowSize : ℕ)
    (g : Globals F) : OxyCore F × Globals F :=
  ({ mSampleRate := samplingRate
     mWindowSize := windowSize
     mEncoder := .new memReedSolomon (encoderClass mode) samplingRate windowSize
     mDecoder := .new mem memReedSolomon (decoderClass mode) (g.init windowSize) samplingRate windowSize },
    (g.init windowSize).init windowSize)

/-- `OXY_Configure(mode, samplingRate, bufferSize, oxyingObject)` -/
def Configure (mem : Decoder F) (memReedSolomon : ReedSolomon) (mode : OxyMode) (samplingRate : F) (g : Globals F) :
    OxyCore F × Globals F :=
  build mem memReedSolomon mode samplingRate (windowSizeFor samplingRate) g

/-- `OXY_SetCustomBaseFreq(baseFreq, oxysSeparation, oxyingObject)` -/
def SetCustomBaseFreq (mem : Decoder F) (memReedSolomon : ReedSolomon) (baseFreq : F) (oxysSeparation : ℤ)
    (st : OxyCore F × Globals F) : OxyCore F × Globals F :=
  let (oxying, g) := st
  let g := { g with
    freqBaseForCustomMultiTone := baseFreq
    oxysSeparationForCustomMultiTone := oxysSeparation }
  if oxying.mDecoder.core.mDecodingMode = Globals.DECODING_MODE_CUSTOM then
    build mem memReedSolomon .CUSTOM oxying.mSampleRate oxying.mWindowSize g
  else (oxying, g)

end OxyCore

end Undertone
