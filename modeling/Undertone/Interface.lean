import Undertone.Handles
import Undertone.Signature

/-!
# The whole interface

`COxyCore` with its encoder and its decoder behind pointers, and the calls of `OxyCoreLib_api.cpp`. Those that encode,
decode or query pass on to the object behind the pointer and do not test it. `OXY_Configure` deletes both objects before
it looks at the mode: when it fails no such call has an outcome any more, and the call went unnoticed exactly if there
was none before it either (`configure_failed_iff`).
-/

namespace Undertone

open CountedLoop BoundedArray Globals

/-! ## The audio of the old modes -/

namespace OldMode

open AudioEncoder (Filling int)

variable {F D : Type} [Doubles D] [Floats F D]

def tailLength : F := Floats.lit 0.5
def gapLength : F := Floats.lit 0.1

/-- `Globals::getLoudnessFromIdx` -/
def getLoudnessFromIdx (idx : ℤ) : F :=
  Floats.pow (Floats.lit 10)
    (Floats.lit (-6) * (Floats.lit 1 - ofInt idx / ofInt (numTokensAll - 1)) / Floats.lit 20)

/-- The first start token fades out in half the time. -/
def samplesForFadeEnd (e : AudioEncoder F) (i : ℕ) : ℤ :=
  if i = 0 then int (e.mSampleRate * durToken * (tailLength * Floats.lit 0.5))
  else int (e.mSampleRate * durToken * tailLength)

/-- The first start token has no gap. -/
def samplesForGap (e : AudioEncoder F) (i : ℕ) : ℤ := if i = 0 then 0 else int (e.mSampleRate * durToken * gapLength)

def factor (e : AudioEncoder F) (i t : ℕ) : F :=
  let fadeEnd := samplesForFadeEnd e i
  let gap := samplesForGap e i
  if t < e.samplesForFadeBegin then AudioEncoder.tokenAmplitude * ofInt t / ofInt e.samplesForFadeBegin
  else if t > e.samplesPerDigit - (fadeEnd + gap) ∧ t < e.samplesPerDigit - gap then
    AudioEncoder.tokenAmplitude * ofInt (e.samplesPerDigit - gap - t) / ofInt fadeEnd
  else if t ≥ e.samplesPerDigit - gap then Floats.lit 0
  else AudioEncoder.tokenAmplitude

section Samples

variable [Synthesis F D]

/-- The sample at `t` of the `i`-th symbol. -/
def sample (mode : OldMode) (e : AudioEncoder F) (digit : ℤ) (i t : ℕ) : F :=
  getLoudnessFromIdx digit * factor e i t *
    Synthesis.sinf (Floats.lit 2 * AudioEncoder.pi * mode.getFreqFromIdx digit e.mSampleRate e.mWindowSize *
      (ofInt t / e.mSampleRate))

/-- The samples of the `i`-th symbol; there are no phases. -/
def writeDigit (mode : OldMode) (e : AudioEncoder F) (digit : ℤ) (i : ℕ) (st : Filling F D) : Option (Filling F D) := do
  let audio ← forUpM 0 e.samplesPerDigit (fun t audio =>
    put e.mNumMaxSamplesEncodedString audio (t + i * e.samplesPerDigit : ℕ) (sample mode e digit i t)) st.audio
  return { st with audio := audio, numSamples := st.numSamples + e.samplesPerDigit }

/-- `EncodeDataToAudioBuffer` of `EncoderAudible` and `EncoderNonAudible`, which mix no signature. -/
def EncodeDataToAudioBuffer (mode : OldMode) (w : Surroundings F) (stringToEncode : List Char) (type : ℤ)
    (melodyString : List Char) (e : AudioEncoder F) : Option (ℕ × AudioEncoder F) := do
  let audio := fun i => if i < e.mNumMaxSamplesEncodedString then Floats.lit 0 else e.mAudioBufferEncodedString i
  let (digits, codec) ← AudioEncoder.transmit stringToEncode e
  let st ← forUpM 0 digits.length (fun i st => do writeDigit mode e (← digits[i]?) i st)
    ⟨Doubles.lit 0, Doubles.lit 0, audio, 0⟩
  let st ← AudioEncoder.addSounds w type melodyString digits e st
  return (st.numSamples, { e with
    mReedSolomon := codec
    mAudioBufferEncodedString := st.audio
    mNumSamplesEncodedString := st.numSamples
    mReadIndexEncodedAudioBuffer := 0 })

end Samples

end OldMode

/-! ## Objects -/

/-- What the pointer to the encoder points to; the class in the members of an old encoder is not read. -/
inductive AnyEncoder (F : Type)
  | old (mode : OldMode) (members : SignedEncoder F)
  | multi (members : SignedEncoder F)

namespace AnyEncoder

variable {F D : Type} [Doubles D] [Floats F D]

def members : AnyEncoder F → SignedEncoder F
  | old _ members => members
  | multi members => members

def setMembers (members : SignedEncoder F) : AnyEncoder F → AnyEncoder F
  | old mode _ => old mode members
  | multi _ => multi members

def setEncoder (encoder : AudioEncoder F) (e : AnyEncoder F) : AnyEncoder F :=
  e.setMembers { e.members with encoder := encoder }

/-- The virtual `EncodeDataToAudioBuffer`. -/
def EncodeDataToAudioBuffer [Synthesis F D] (w : Surroundings F) (stringToEncode : List Char) (type : ℤ)
    (melodyString : List Char) : AnyEncoder F → Option (ℕ × AnyEncoder F)
  | old mode members => do
    let (n, encoder) ← mode.EncodeDataToAudioBuffer w stringToEncode type melodyString members.encoder
    return (n, old mode { members with encoder := encoder })
  | multi members => do
    let (n, members) ← members.EncodeDataToAudioBuffer w stringToEncode type melodyString
    return (n, multi members)

end AnyEncoder

namespace Decoder

variable {F D : Type} [Doubles D] [Floats F D]

def GetConfidenceError (d : Decoder F) : F := d.mConfidenceCorrection

def GetConfidenceNoise (d : Decoder F) : F := d.core.analysis.mConfidenceEnergyRatios

/-- The energy ratios between 0 and 15, over 15. -/
def confidenceEnergyRatiosNorm (x : F) : F :=
  if Floats.lt x (Floats.lit 0) ∨ Floats.eq x (Floats.lit 0) then Floats.lit 0
  else if Floats.lt (Floats.lit 15) x ∨ Floats.eq x (Floats.lit 15) then Floats.lit 1
  else x / Floats.lit 15

def GetConfidence (d : Decoder F) : F :=
  confidenceEnergyRatiosNorm d.core.analysis.mConfidenceEnergyRatios * d.mConfidenceCorrection

def GetReceivedOxysVolume (d : Decoder F) : F :=
  Floats.lit 20 * Floats.ofDouble (Doubles.log10 (Floats.toDouble d.core.analysis.mReceivedOxysVolume))

def GetDecodedMode (d : Decoder F) : ℤ := d.core.mDecodingMode

/-- The range of the custom mode, as the globals are now; 0 in all other classes. -/
def decodingFreq (g : Globals F) (idx : ℤ) (d : Decoder F) : F :=
  match d.cls with
  | .CustomMultiTone => getToneFromIdxCustomMultiTone g idx d.core.analysis.mSampleRate d.frames.mWindowSize
  | _ => Floats.lit 0

def GetDecodingBeginFreq (g : Globals F) (d : Decoder F) : F := decodingFreq g 0 d

def GetDecodingEndFreq (g : Globals F) (d : Decoder F) : F := decodingFreq g numTonesAll d

/-- The samples that are copied; their number is returned. -/
def GetSpectrum (d : Decoder F) : List F :=
  let S := d.core.analysis.mSpectralAnalysis
  (List.range (S.mFftSize / 2)).map S.mSpecMag

end Decoder

structure COxyCore (F : Type) where
  mEncoder : Option (AnyEncoder F)
  mDecoder : Option (Decoder F)
  mSampleRate : F
  mBufferSize : ℤ
  mWindowSize : ℕ

/-- What `new` leaves in the memory of an encoder and of a decoder. -/
structure Memory (F : Type) where
  reedSolomon : ReedSolomon
  audio : ℕ → F
  decoder : Decoder F

/-- The globals that the calls change. -/
structure Shared (F : Type) where
  globals : Globals F
  synthVolume : F

namespace COxyCore

variable {F D : Type} [Doubles D] [Floats F D] [CFFTOoura F] [Synthesis F D]

/-- `OXY_Create`, on memory that `new` left as it was. -/
def Create (mem : COxyCore F) : COxyCore F := { mem with mEncoder := none, mDecoder := none }

/-- The seven modes. -/
def modeOf : ℤ → Option (OldMode ⊕ OxyMode)
  | 0 => some (.inl .AUDIBLEOLD)
  | 1 => some (.inl .NONAUDIBLEOLD)
  | 2 => some (.inr .AUDIBLE)
  | 3 => some (.inr .NONAUDIBLE)
  | 4 => some (.inr .COMPRESSION)
  | 5 => some (.inr .ALL)
  | 6 => some (.inr .CUSTOM)
  | _ => none

def newEncoder (mem : Memory F) (mode : OldMode ⊕ OxyMode) (o : COxyCore F) : AnyEncoder F :=
  match mode with
  | .inl mode => .old mode
      (.new mem.reedSolomon mem.audio .AudibleMultiTone o.mSampleRate o.mBufferSize.toNat o.mWindowSize)
  | .inr mode => .multi
      (.new mem.reedSolomon mem.audio (OxyCore.encoderClass mode) o.mSampleRate o.mBufferSize.toNat o.mWindowSize)

def decoderClass : OldMode ⊕ OxyMode → DecoderClass
  | .inl mode => mode.decoderClass
  | .inr mode => OxyCore.decoderClass mode

/-- A new encoder and then a new decoder; the constructor of each runs `Globals::init`. -/
def build (mem : Memory F) (mode : OldMode ⊕ OxyMode) (o : COxyCore F) (g : Globals F) : COxyCore F × Globals F :=
  ({ o with
      mEncoder := some (newEncoder mem mode o)
      mDecoder := some (.new mem.decoder mem.reedSolomon (decoderClass mode) (g.init o.mWindowSize) o.mSampleRate
        o.mWindowSize) },
    (g.init o.mWindowSize).init o.mWindowSize)

/-- `OXY_Configure(mode, samplingRate, bufferSize, oxyingObject)` -/
def Configure (mem : Memory F) (mode : ℤ) (samplingRate : F) (bufferSize : ℤ) (o : COxyCore F) (g : Globals F) :
    ℤ × COxyCore F × Globals F :=
  let o := { o with
    mSampleRate := samplingRate
    mBufferSize := bufferSize
    mWindowSize := OxyCore.windowSizeFor samplingRate
    mEncoder := none
    mDecoder := none }
  match modeOf mode with
  | some mode => (0, build mem mode o g)
  | none => (-1, o, g)

/-- `OXY_SetCustomBaseFreq(baseFreq, oxysSeparation, oxyingObject)` -/
def SetCustomBaseFreq (mem : Memory F) (baseFreq : F) (oxysSeparation : ℤ) (o : COxyCore F) (g : Globals F) :
    COxyCore F × Globals F :=
  let g := { g with
    freqBaseForCustomMultiTone := baseFreq
    oxysSeparationForCustomMultiTone := oxysSeparation }
  if ∃ d ∈ o.mDecoder, d.core.mDecodingMode = DECODING_MODE_CUSTOM then build mem (.inr .CUSTOM) o g else (o, g)

/-- The calls of the interface on an object, and the numbers that `rand()` returns while it encodes. -/
inductive Call (F : Type)
  | Configure (mem : Memory F) (mode : ℤ) (samplingRate : F) (bufferSize : ℤ)
  | SetCustomBaseFreq (mem : Memory F) (baseFreq : F) (oxysSeparation : ℤ)
  | SetSynthVolume (synthVolume : F)
  | SetAudioSignature (samplesSize : ℤ) (samplesBuffer : Option (ℕ → F))
  | EncodeDataToAudioBuffer (stringToEncode : List Char) (type : ℤ) (melodyString : List Char) (rand : ℕ → ℤ)
  | GetEncodedAudioBuffer
  | ResetEncodedAudioBuffer
  | DecodeAudioBuffer (audioBuffer : ℕ → F) (size : ℕ)
  | GetDecodedData
  | GetConfidence
  | GetConfidenceError
  | GetConfidenceNoise
  | GetReceivedOxysVolume
  | GetDecodedMode
  | GetDecodingBeginFreq
  | GetDecodingEndFreq
  | GetSpectrum

/-- What a call returns and writes to the buffers of its caller. -/
inductive Answer (F : Type)
  | ret (ret : ℤ)
  | value (x : F)
  | samples (ret : ℤ) (samples : List F)
  | data (ret : ℤ) (stringDecoded : List Char)

/-- A call passed on to the encoder. -/
def onEncoder (f : AnyEncoder F → Option (Answer F × AnyEncoder F)) (o : COxyCore F) :
    Option (Answer F × COxyCore F) := do
  let e ← o.mEncoder
  let (r, e) ← f e
  return (r, { o with mEncoder := some e })

/-- A call passed on to the decoder. -/
def onDecoder (f : Decoder F → Option (Answer F × Decoder F)) (o : COxyCore F) : Option (Answer F × COxyCore F) := do
  let d ← o.mDecoder
  let (r, d) ← f d
  return (r, { o with mDecoder := some d })

/-- The calls that encode, decode or query. -/
def use (c : Call F) (w : Shared F) (o : COxyCore F) : Option (Answer F × COxyCore F) :=
  match c with
  | .Configure .. | .SetCustomBaseFreq .. | .SetSynthVolume .. => none
  | .SetAudioSignature samplesSize samplesBuffer => o.onEncoder fun e => do
    let members ← e.members.SetAudioSignature samplesSize samplesBuffer
    return (.ret 0, e.setMembers members)
  | .EncodeDataToAudioBuffer stringToEncode type melodyString rand => o.onEncoder fun e => do
    let (n, e) ← e.EncodeDataToAudioBuffer ⟨w.globals, w.synthVolume, rand⟩ stringToEncode type melodyString
    return (.ret n, e)
  | .GetEncodedAudioBuffer => o.onEncoder fun e => do
    let (samples, encoder) ← e.members.encoder.GetEncodedAudioBuffer
    return (.samples samples.length samples, e.setEncoder encoder)
  | .ResetEncodedAudioBuffer => o.onEncoder fun e =>
    some (.ret 0, e.setEncoder e.members.encoder.ResetEncodedAudioBuffer)
  | .DecodeAudioBuffer audioBuffer size => o.onDecoder fun d =>
    let (ret, d) := d.DecodeAudioBuffer w.globals audioBuffer size
    some (.ret ret, d)
  | .GetDecodedData => o.onDecoder fun d => do
    let (ret, stringDecoded, d) ← d.GetDecodedData
    return (.data ret stringDecoded, d)
  | .GetConfidence => o.onDecoder fun d => some (.value d.GetConfidence, d)
  | .GetConfidenceError => o.onDecoder fun d => some (.value d.GetConfidenceError, d)
  | .GetConfidenceNoise => o.onDecoder fun d => some (.value d.GetConfidenceNoise, d)
  | .GetReceivedOxysVolume => o.onDecoder fun d => some (.value d.GetReceivedOxysVolume, d)
  | .GetDecodedMode => o.onDecoder fun d => some (.ret d.GetDecodedMode, d)
  | .GetDecodingBeginFreq => o.onDecoder fun d => some (.value (d.GetDecodingBeginFreq w.globals), d)
  | .GetDecodingEndFreq => o.onDecoder fun d => some (.value (d.GetDecodingEndFreq w.globals), d)
  | .GetSpectrum => o.onDecoder fun d => some (.samples d.GetSpectrum.length d.GetSpectrum, d)

def Call.isUse : Call F → Bool
  | .Configure .. | .SetCustomBaseFreq .. | .SetSynthVolume .. => false
  | _ => true

/-- A call on an object; `none` where it reads through a null pointer, or outside an array. -/
def call (c : Call F) (o : COxyCore F) (w : Shared F) : Option (Answer F × COxyCore F × Shared F) :=
  match c with
  | .Configure mem mode samplingRate bufferSize =>
    let (ret, o, g) := o.Configure mem mode samplingRate bufferSize w.globals
    some (.ret ret, o, { w with globals := g })
  | .SetCustomBaseFreq mem baseFreq oxysSeparation =>
    let (o, g) := o.SetCustomBaseFreq mem baseFreq oxysSeparation w.globals
    some (.ret 0, o, { w with globals := g })
  | .SetSynthVolume synthVolume => some (.ret 0, o, { w with synthVolume := synthVolume })
  | c => (use c w o).map fun (r, o) => (r, o, w)

/-! ## The two pointers -/

section Pointers

variable {o o' : COxyCore F} {w w' : Shared F} {c : Call F} {r : Answer F} {b : Bool}

/-- Both pointers are set, or both are null. -/
structure Pointers (b : Bool) (o : COxyCore F) : Prop where
  encoder : o.mEncoder.isSome = b
  decoder : o.mDecoder.isSome = b

omit [Doubles D] [Floats F D] [CFFTOoura F] [Synthesis F D] in
theorem onEncoder_inv {f : AnyEncoder F → Option (Answer F × AnyEncoder F)} (h : o.onEncoder f = some (r, o')) :
    ∃ e e', o.mEncoder = some e ∧ f e = some (r, e') ∧ o' = { o with mEncoder := some e' } := by
  obtain ⟨e, he, hrest⟩ := Option.bind_eq_some_iff.1 h
  obtain ⟨⟨r', e'⟩, hf, hdone⟩ := Option.bind_eq_some_iff.1 hrest
  obtain ⟨rfl, rfl⟩ := Prod.mk.inj (Option.some.inj hdone)
  exact ⟨e, e', he, hf, rfl⟩

omit [Doubles D] [Floats F D] [CFFTOoura F] [Synthesis F D] in
theorem onDecoder_inv {f : Decoder F → Option (Answer F × Decoder F)} (h : o.onDecoder f = some (r, o')) :
    ∃ d d', o.mDecoder = some d ∧ f d = some (r, d') ∧ o' = { o with mDecoder := some d' } := by
  obtain ⟨d, hd, hrest⟩ := Option.bind_eq_some_iff.1 h
  obtain ⟨⟨r', d'⟩, hf, hdone⟩ := Option.bind_eq_some_iff.1 hrest
  obtain ⟨rfl, rfl⟩ := Prod.mk.inj (Option.some.inj hdone)
  exact ⟨d, d', hd, hf, rfl⟩

/-- A call that encodes, decodes or queries goes through one of the two pointers. -/
theorem use_cases (c : Call F) (w : Shared F) :
    (∃ f, ∀ o, use c w o = o.onEncoder f) ∨ (∃ f, ∀ o, use c w o = o.onDecoder f) ∨ ∀ o, use c w o = none := by
  cases c with
  | Configure => exact Or.inr (Or.inr fun _ => rfl)
  | SetCustomBaseFreq => exact Or.inr (Or.inr fun _ => rfl)
  | SetSynthVolume => exact Or.inr (Or.inr fun _ => rfl)
  | SetAudioSignature => exact Or.inl ⟨_, fun _ => rfl⟩
  | EncodeDataToAudioBuffer => exact Or.inl ⟨_, fun _ => rfl⟩
  | GetEncodedAudioBuffer => exact Or.inl ⟨_, fun _ => rfl⟩
  | ResetEncodedAudioBuffer => exact Or.inl ⟨_, fun _ => rfl⟩
  | _ => exact Or.inr (Or.inl ⟨_, fun _ => rfl⟩)

/-- Without encoder and decoder no such call has an outcome. -/
theorem use_null (h : Pointers false o) : use c w o = none := by
  rcases use_cases c w with ⟨f, hf⟩ | ⟨f, hf⟩ | hnone
  · rw [hf, onEncoder, Option.isNone_iff_eq_none.1 (Option.isSome_eq_false_iff.1 h.encoder)]
    rfl
  · rw [hf, onDecoder, Option.isNone_iff_eq_none.1 (Option.isSome_eq_false_iff.1 h.decoder)]
    rfl
  · exact hnone o

theorem Pointers.use (h : Pointers b o) (hc : use c w o = some (r, o')) : Pointers b o' := by
  rcases use_cases c w with ⟨f, hf⟩ | ⟨f, hf⟩ | hnone
  · obtain ⟨e, e', he, -, rfl⟩ := onEncoder_inv ((hf o).symm.trans hc)
    exact ⟨(congrArg Option.isSome he).symm.trans h.encoder, h.decoder⟩
  · obtain ⟨d, d', hd, -, rfl⟩ := onDecoder_inv ((hf o).symm.trans hc)
    exact ⟨h.encoder, (congrArg Option.isSome hd).symm.trans h.decoder⟩
  · exact absurd ((hnone o).symm.trans hc) (by simp)

omit [CFFTOoura F] [Synthesis F D] in
theorem build_pointers (mem : Memory F) (mode : OldMode ⊕ OxyMode) (o : COxyCore F) (g : Globals F) :
    Pointers true (build mem mode o g).1 := ⟨rfl, rfl⟩

omit [CFFTOoura F] [Synthesis F D] in
theorem configure_pointers (mem : Memory F) (mode : ℤ) (samplingRate : F) (bufferSize : ℤ) (o : COxyCore F)
    (g : Globals F) : Pointers (decide (0 ≤ (o.Configure mem mode samplingRate bufferSize g).1))
      (o.Configure mem mode samplingRate bufferSize g).2.1 := by
  unfold COxyCore.Configure
  cases modeOf mode with
  | none => exact ⟨rfl, rfl⟩
  | some mode => exact build_pointers mem mode _ g

omit [CFFTOoura F] [Synthesis F D] in
theorem setCustomBaseFreq_pointers (h : Pointers b o) (mem : Memory F) (baseFreq : F) (oxysSeparation : ℤ)
    (g : Globals F) : Pointers b (o.SetCustomBaseFreq mem baseFreq oxysSeparation g).1 := by
  unfold COxyCore.SetCustomBaseFreq
  by_cases hmode : ∃ d ∈ o.mDecoder, d.core.mDecodingMode = DECODING_MODE_CUSTOM
  · simp only [if_pos hmode]
    obtain ⟨d, hd, -⟩ := hmode
    have hb : b = true := h.decoder.symm.trans (congrArg Option.isSome hd)
    rw [hb]
    exact build_pointers mem _ o _
  · simp only [if_neg hmode]
    exact h

/-- Whether the object is configured after the call. -/
def Call.configured (c : Call F) (r : Answer F) (b : Bool) : Bool :=
  match c, r with
  | .Configure .., .ret ret => decide (0 ≤ ret)
  | _, _ => b

theorem call_use (hc : c.isUse = true) : call c o w = (use c w o).map fun (r, o) => (r, o, w) := by
  cases c with
  | Configure => exact absurd hc (by simp [Call.isUse])
  | SetCustomBaseFreq => exact absurd hc (by simp [Call.isUse])
  | SetSynthVolume => exact absurd hc (by simp [Call.isUse])
  | _ => rfl

omit [Doubles D] [Floats F D] [CFFTOoura F] [Synthesis F D] in
theorem configured_use (hc : c.isUse = true) : c.configured r b = b := by
  cases c with
  | Configure => exact absurd hc (by simp [Call.isUse])
  | _ => rfl

theorem Pointers.call (h : Pointers b o) (hc : call c o w = some (r, o', w')) :
    Pointers (c.configured r b) o' := by
  by_cases huse : c.isUse = true
  · rw [call_use huse] at hc
    obtain ⟨⟨r', o1⟩, huse', hdone⟩ := Option.map_eq_some_iff.1 hc
    simp only [Prod.mk.injEq] at hdone
    obtain ⟨rfl, rfl, -⟩ := hdone
    rw [configured_use huse]
    exact h.use huse'
  · cases c with
    | Configure mem mode samplingRate bufferSize =>
      obtain ⟨rfl, hdone⟩ := Prod.mk.inj (Option.some.inj hc)
      obtain ⟨rfl, -⟩ := Prod.mk.inj hdone
      exact configure_pointers mem mode samplingRate bufferSize o w.globals
    | SetCustomBaseFreq mem baseFreq oxysSeparation =>
      obtain ⟨rfl, hdone⟩ := Prod.mk.inj (Option.some.inj hc)
      obtain ⟨rfl, -⟩ := Prod.mk.inj hdone
      exact setCustomBaseFreq_pointers h mem baseFreq oxysSeparation w.globals
    | SetSynthVolume synthVolume =>
      obtain ⟨rfl, hdone⟩ := Prod.mk.inj (Option.some.inj hc)
      obtain ⟨rfl, -⟩ := Prod.mk.inj hdone
      exact h
    | _ => exact absurd rfl huse

end Pointers

end COxyCore

/-! ## Runs -/

open COxyCore

/-- Objects, each with its handle, and the globals they share. -/
structure Interface (ι F : Type) where
  shared : Shared F
  object : ι → COxyCore F

namespace Interface

variable {ι F D : Type} [DecidableEq ι] [Doubles D] [Floats F D] [CFFTOoura F] [Synthesis F D]

/-- Every object created, and no other call. -/
def initial (mem : ι → COxyCore F) : Interface ι F := ⟨⟨Globals.initial, Floats.lit 0⟩, fun i => Create (mem i)⟩

/-- A call on the object with the handle `c.1`. -/
def step (c : ι × Call F) (s : Interface ι F) : Option (Answer F × Interface ι F) :=
  (call c.2 (s.object c.1) s.shared).map fun (r, o, w) => (r, ⟨w, Function.update s.object c.1 o⟩)

/-- The last `OXY_Configure` on `A` succeeded. -/
def configured (A : ι) (log : List ((ι × Call F) × Answer F)) : Bool :=
  log.foldl (fun b e => if e.1.1 = A then e.1.2.configured e.2 b else b) false

/-- Calls that encode, decode or query on the object. -/
def Uses (A : ι) (log : List ((ι × Call F) × Answer F)) : Prop := ∀ e ∈ log, e.1.1 = A ∧ e.1.2.isUse = true

section Runs

variable {A : ι} {mem : ι → COxyCore F} {log : List ((ι × Call F) × Answer F)} {s s' : Interface ι F}

omit [Doubles D] [CFFTOoura F] [Synthesis F D] in
theorem configured_snoc (A : ι) (log : List ((ι × Call F) × Answer F)) (i : ι) (c : Call F) (r : Answer F) :
    configured A (log ++ [((i, c), r)]) =
      if i = A then c.configured r (configured A log) else configured A log := by
  unfold configured
  rw [List.foldl_append]
  rfl

theorem step_inv {i : ι} {c : Call F} {r : Answer F} (h : step (i, c) s = some (r, s')) :
    ∃ o, call c (s.object i) s.shared = some (r, o, s'.shared) ∧ s'.object = Function.update s.object i o := by
  obtain ⟨⟨r, o, w⟩, hcall, hres⟩ := Option.map_eq_some_iff.1 h
  obtain ⟨rfl, rfl⟩ := Prod.mk.inj hres
  exact ⟨o, hcall, rfl⟩

/-- The pointers of an object say whether its last configuration succeeded. -/
theorem run_pointers (h : Run step (initial mem) log s) : Pointers (configured A log) (s.object A) := by
  refine h.rule (fun log s => Pointers (configured A log) (s.object A)) ⟨rfl, rfl⟩ ?_
  rintro log s ⟨i, c⟩ r s' hs hstep
  obtain ⟨o, hcall, hs'⟩ := step_inv hstep
  rw [configured_snoc, hs']
  by_cases hi : i = A
  · subst hi
    rw [if_pos rfl, Function.update_self]
    exact hs.call hcall
  · rw [if_neg hi, Function.update_of_ne (Ne.symm hi)]
    exact hs

/-- Without encoder and decoder no call that encodes, decodes or queries has an outcome. -/
theorem run_null (hs : Pointers false (s.object A)) (huses : Uses A log) (h : Run step s log s') : log = [] := by
  cases log with
  | nil => rfl
  | cons e rest =>
    obtain ⟨⟨i, c⟩, r⟩ := e
    obtain ⟨hi, hc⟩ := huses _ List.mem_cons_self
    obtain rfl : i = A := hi
    have happend : Run step s ([((i, c), r)] ++ rest) s' := h
    obtain ⟨s1, h1, -⟩ := happend.split
    have hsnoc : Run step s ([] ++ [((i, c), r)]) s1 := h1
    obtain ⟨s0, h0, hstep⟩ := hsnoc.snoc_inv
    obtain rfl := h0.nil_inv
    obtain ⟨o, hcall, -⟩ := step_inv hstep
    rw [call_use hc, use_null hs] at hcall
    exact absurd hcall (by simp)

/-- With a decoder a query has an outcome. -/
theorem run_query (hs : Pointers true (s.object A)) :
    ∃ r t, Run step s ([] ++ [((A, .GetDecodedMode), r)]) t := by
  obtain ⟨d, hd⟩ := Option.isSome_iff_exists.1 hs.decoder
  refine ⟨.ret d.GetDecodedMode, ⟨s.shared, Function.update s.object A { s.object A with mDecoder := some d }⟩, ?_⟩
  refine .call .nil ?_
  have huse : use .GetDecodedMode s.shared (s.object A) =
      some (.ret d.GetDecodedMode, { s.object A with mDecoder := some d }) := by
    show (s.object A).onDecoder _ = _
    rw [onDecoder, hd]
    rfl
  have hcall := call_use (c := .GetDecodedMode) (o := s.object A) (w := s.shared) rfl
  rw [huse] at hcall
  rw [step, hcall]
  rfl

/-- The later calls notice that encoder and decoder are gone. -/
theorem lost_noticed (hs : Pointers true (s.object A)) (hs' : Pointers false (s'.object A)) :
    ¬∀ later, Uses A later → ((∃ t, Run step s later t) ↔ ∃ t, Run step s' later t) := by
  intro hsame
  obtain ⟨r, t, hrun⟩ := run_query hs
  have huses : Uses A ([] ++ [((A, .GetDecodedMode), r)]) := by
    intro e he
    rw [List.mem_singleton.1 he]
    exact ⟨rfl, rfl⟩
  obtain ⟨t', hrun'⟩ := (hsame _ huses).1 ⟨t, hrun⟩
  exact absurd (run_null hs' huses hrun') (by simp)

theorem failed_pointers (h : Run step (initial mem) log s) {newMem : Memory F} {mode : ℤ} {samplingRate : F}
    {bufferSize : ℤ} {ret : ℤ}
    (hfail : step (A, .Configure newMem mode samplingRate bufferSize) s = some (.ret ret, s')) (hret : ret < 0) :
    Pointers false (s'.object A) := by
  have hfailed := run_pointers (A := A) (h.call hfail)
  rw [configured_snoc, if_pos rfl] at hfailed
  have hneg : decide (0 ≤ ret) = false := decide_eq_false (by omega)
  exact hneg ▸ hfailed

/-- A call of `OXY_Configure` that fails makes no difference to the later calls exactly if the last one before it failed
as well, or there was none. -/
theorem configure_failed_iff (h : Run step (initial mem) log s) {newMem : Memory F} {mode : ℤ} {samplingRate : F}
    {bufferSize : ℤ} {ret : ℤ}
    (hfail : step (A, .Configure newMem mode samplingRate bufferSize) s = some (.ret ret, s')) (hret : ret < 0) :
    (∀ later, Uses A later → ((∃ t, Run step s later t) ↔ ∃ t, Run step s' later t)) ↔
      configured A log = false := by
  have hpointers := run_pointers (A := A) h
  have hlost := failed_pointers h hfail hret
  constructor
  · intro hsame
    by_contra hconf
    rw [Bool.not_eq_false] at hconf
    rw [hconf] at hpointers
    exact lost_noticed hpointers hlost hsame
  · intro hconf later huses
    rw [hconf] at hpointers
    constructor
    · rintro ⟨t, hrun⟩
      rw [run_null hpointers huses hrun]
      exact ⟨s', .nil⟩
    · rintro ⟨t, hrun⟩
      rw [run_null hlost huses hrun]
      exact ⟨s, .nil⟩

end Runs

/-! ## A mode of none -/

/-- Memory that is all zero. -/
noncomputable def blank : Unit → COxyCore ℝ := fun _ => ⟨none, none, 0, 0, 0⟩

noncomputable def audible : Unit × Call ℝ := ((), .Configure ⟨default, fun _ => 0, default⟩ 2 44100 1024)

/-- There is no mode 7. -/
noncomputable def unknown : Unit × Call ℝ := ((), .Configure ⟨default, fun _ => 0, default⟩ 7 44100 1024)

theorem step_unknown (s : Interface Unit ℝ) : ∃ s', step unknown s = some (.ret (-1), s') := ⟨_, rfl⟩

theorem run_audible : ∃ s, Run step (initial blank) ([] ++ [(audible, .ret 0)]) s := ⟨_, .call .nil rfl⟩

/-- After a failed call another one makes no difference. -/
theorem configure_failed_twice :
    ∃ s s', Run step (initial blank) ([] ++ [(audible, .ret 0)] ++ [(unknown, .ret (-1))]) s ∧
    step unknown s = some (.ret (-1), s') ∧
      ∀ later, Uses () later → ((∃ t, Run step s later t) ↔ ∃ t, Run step s' later t) := by
  obtain ⟨s0, h0⟩ := run_audible
  obtain ⟨s, h⟩ := step_unknown s0
  obtain ⟨s', h'⟩ := step_unknown s
  exact ⟨s, s', h0.call h, h', (configure_failed_iff (h0.call h) h' (by decide)).2 rfl⟩

/-- After a successful call it does. -/
theorem configure_failed_once : ∃ s s', Run step (initial blank) ([] ++ [(audible, .ret 0)]) s ∧
    step unknown s = some (.ret (-1), s') ∧
      ¬∀ later, Uses () later → ((∃ t, Run step s later t) ↔ ∃ t, Run step s' later t) := by
  obtain ⟨s, h⟩ := run_audible
  obtain ⟨s', h'⟩ := step_unknown s
  exact ⟨s, s', h, h', lost_noticed (run_pointers h) (failed_pointers h h' (by decide))⟩

end Interface

end Undertone
