import Undertone.Correction
import Undertone.Tuning

/-!
# Objects that share the globals

Every object of the interface has its own encoder and decoder, but the base frequency and the separation of the custom
mode and the hop offsets are globals: each constructor sets the offsets for its own window size, and
`OXY_SetCustomBaseFreq` sets the parameters of the custom mode for all. An object is independent of the others as long
as the globals that its calls read are those that its own calls made (`handles_separate`).
-/

namespace Undertone

open CountedLoop Globals

/-! ## The old modes -/

/-- The two modes that transmit one tone a symbol. -/
inductive OldMode
  | AUDIBLEOLD
  | NONAUDIBLEOLD
  deriving DecidableEq

namespace OldMode

def decoderClass : OldMode → DecoderClass
  | AUDIBLEOLD => .Audible
  | NONAUDIBLEOLD => .NonAudible

variable {F D : Type} [Doubles D] [Floats F D]

/-- `Globals::getFreqFromIdx...` of the mode. -/
def getFreqFromIdx : OldMode → ℤ → F → ℕ → F
  | AUDIBLEOLD => getFreqFromIdxAudible
  | NONAUDIBLEOLD => getFreqFromIdxNonAudible

end OldMode

/-- `EncoderAudible` and `EncoderNonAudible`. -/
structure OldEncoder (F : Type) where
  mode : OldMode
  mSampleRate : F
  mWindowSize : ℕ
  mReedSolomon : ReedSolomon.Codec

namespace OldEncoder

variable {F D : Type} [Doubles D] [Floats F D]

/-- The symbols to transmit, as in the other encoders. -/
def digits (stringToEncode : List Char) (e : OldEncoder F) : Option (List ℤ × OldEncoder F) :=
  let digits := Encoder.userDigits stringToEncode
  if digits.length < numFrontDoorTokens + numWordTokens then none
  else
    let (code, codec) := e.mReedSolomon.send (digits ++ [Encoder.checkDigit digits])
    some (code, { e with mReedSolomon := codec })

def currentFreq (e : OldEncoder F) (digit : ℤ) : F := e.mode.getFreqFromIdx digit e.mSampleRate e.mWindowSize

end OldEncoder

/-! ## Objects -/

/-- The object of one of the old modes. -/
structure OldCore (F : Type) where
  mSampleRate : F
  mWindowSize : ℕ
  mEncoder : OldEncoder F
  mDecoder : Decoder F

/-- `COxyCore`: without encoder and decoder, as `OXY_Create` leaves it, or configured. -/
inductive Object (F : Type)
  | created
  | old (oxying : OldCore F)
  | multi (oxying : OxyCore F)

namespace Object

variable {F D : Type} [Doubles D] [Floats F D] [CFFTOoura F]

def mDecoder : Object F → Option (Decoder F)
  | created => none
  | old oxying => some oxying.mDecoder
  | multi oxying => some oxying.mDecoder

def setDecoder (d : Decoder F) : Object F → Object F
  | created => created
  | old oxying => old { oxying with mDecoder := d }
  | multi oxying => multi { oxying with mDecoder := d }

/-- For each mode a decoder listens to: the first and the last bin of its alphabet, and the bin of every tone at every
value of `mDecoding`. -/
def evaluatedBins (g : Globals F) (d : Decoder F) : List (ℤ × ℤ × (ℤ → ℕ → ℤ)) :=
  (List.range d.cls.lanes).map fun t =>
    let L := d.core.analysis.lane t
    let mode : ℤ := if d.cls = .AllMultiTone then t else d.cls.mode
    (L.mBeginBin, L.mEndBin, fun mDecoding i =>
      if d.cls.isMultiTone then Analysis.evalToneBin g mode mDecoding L i else L.mFreqsBins i)

/-- The calls of the interface that configure, encode or decode. A constructor runs on memory that `new` left as it
was; a mode is none of the enumeration where it is `none`. -/
inductive Call (F : Type)
  | Configure (mem : Decoder F) (memReedSolomon : ReedSolomon) (mode : Option (OldMode ⊕ OxyMode)) (samplingRate : F)
  | SetCustomBaseFreq (mem : Decoder F) (memReedSolomon : ReedSolomon) (baseFreq : F) (oxysSeparation : ℤ)
  | EncodeDataToAudioBuffer (stringToEncode : List Char)
  | DecodeAudioBuffer (audioBuffer : ℕ → F) (size : ℕ)
  | GetDecodedData

/-- What a call returns, with the frequencies of the tones of each symbol it encodes, or the bins it decodes by. -/
inductive Answer (F : Type)
  | ret (ret : ℤ)
  | encoded (freqs : List (List F))
  | decoded (ret : ℤ) (bins : List (ℤ × ℤ × (ℤ → ℕ → ℤ)))
  | data (ret : ℤ) (stringDecoded : List Char)

/-- `OXY_Configure` -/
def Configure (mem : Decoder F) (memReedSolomon : ReedSolomon) (mode : Option (OldMode ⊕ OxyMode)) (samplingRate : F)
    (g : Globals F) : Answer F × Object F × Globals F :=
  let windowSize := OxyCore.windowSizeFor samplingRate
  match mode with
  | none => (.ret (-1), .created, g)
  | some (.inl mode) =>
    (.ret 0, .old
      { mSampleRate := samplingRate
        mWindowSize := windowSize
        mEncoder := ⟨mode, samplingRate, windowSize, .new memReedSolomon⟩
        mDecoder := .new mem memReedSolomon mode.decoderClass (g.init windowSize) samplingRate windowSize },
      (g.init windowSize).init windowSize)
  | some (.inr mode) =>
    let (oxying, g) := OxyCore.Configure mem memReedSolomon mode samplingRate g
    (.ret 0, .multi oxying, g)

/-- `OXY_SetCustomBaseFreq` -/
def SetCustomBaseFreq (mem : Decoder F) (memReedSolomon : ReedSolomon) (baseFreq : F) (oxysSeparation : ℤ)
    (o : Object F) (g : Globals F) : Object F × Globals F :=
  let g' := { g with
    freqBaseForCustomMultiTone := baseFreq
    oxysSeparationForCustomMultiTone := oxysSeparation }
  match o with
  | .created => (.created, g')
  | .old oxying =>
    if oxying.mDecoder.core.mDecodingMode = DECODING_MODE_CUSTOM then
      let (oxying, g) := OxyCore.build mem memReedSolomon .CUSTOM oxying.mSampleRate oxying.mWindowSize g'
      (.multi oxying, g)
    else (.old oxying, g')
  | .multi oxying =>
    let (oxying, g) := OxyCore.SetCustomBaseFreq mem memReedSolomon baseFreq oxysSeparation (oxying, g)
    (.multi oxying, g)

/-- `OXY_EncodeDataToAudioBuffer`; `none` without an encoder. -/
def EncodeDataToAudioBuffer (stringToEncode : List Char) (o : Object F) (g : Globals F) :
    Option (Answer F × Object F) :=
  match o with
  | .created => none
  | .old oxying => (oxying.mEncoder.digits stringToEncode).map fun (code, e) =>
    (.encoded (code.map fun digit => [e.currentFreq digit]), .old { oxying with mEncoder := e })
  | .multi oxying => (oxying.mEncoder.digits stringToEncode).map fun (code, e) =>
    (.encoded (code.mapIdx fun i digit => [(e.mCurrentFreqs g digit i).1, (e.mCurrentFreqs g digit i).2]),
      .multi { oxying with mEncoder := e })

/-- A call on an object; `none` where it reads through a null pointer or past the end of a vector. -/
def call (c : Call F) (o : Object F) (g : Globals F) : Option (Answer F × Object F × Globals F) :=
  match c with
  | .Configure mem memReedSolomon mode samplingRate => some (Configure mem memReedSolomon mode samplingRate g)
  | .SetCustomBaseFreq mem memReedSolomon baseFreq oxysSeparation =>
    some (.ret 0, SetCustomBaseFreq mem memReedSolomon baseFreq oxysSeparation o g)
  | .EncodeDataToAudioBuffer stringToEncode => (EncodeDataToAudioBuffer stringToEncode o g).map fun (r, o) => (r, o, g)
  | .DecodeAudioBuffer audioBuffer size => o.mDecoder.map fun d =>
    let (ret, d') := d.DecodeAudioBuffer g audioBuffer size
    (.decoded ret (evaluatedBins g d), o.setDecoder d', g)
  | .GetDecodedData => o.mDecoder.bind fun d => d.GetDecodedData.map fun (ret, s, d') =>
    (.data ret s, o.setDecoder d', g)

end Object

/-- Objects, each with its handle, and the globals they share. -/
structure Objects (ι F : Type) where
  globals : Globals F
  object : ι → Object F

namespace Objects

variable {ι F D : Type} [DecidableEq ι] [Doubles D] [Floats F D] [CFFTOoura F]

/-- Before any call. -/
def initial : Objects ι F := ⟨Globals.initial, fun _ => .created⟩

/-- A call on the object with the handle `c.1`. -/
def step (c : ι × Object.Call F) (s : Objects ι F) : Option (Object.Answer F × Objects ι F) :=
  (Object.call c.2 (s.object c.1) s.globals).map fun (r, o, g) => (r, ⟨g, Function.update s.object c.1 o⟩)

end Objects

/-! ## What the globals are read for -/

namespace Globals

variable {F D : Type} [Doubles D] [Floats F D]

/-- The hops in bins that no constructor changes. -/
structure FixedBins (g : Globals F) : Prop where
  audible : g.nBinsOffsetForAudibleMultiTone = 12
  nonAudible : g.nBinsOffsetForNonAudibleMultiTone = 4
  compression : g.nBinsOffsetForCompressionMultiTone = 3

/-- `n` bins in Hz, as `Globals::init` has it. -/
def hopOffset (n : ℤ) (fftsize : ℕ) : F := ofInt n / (ofInt fftsize / Floats.lit 44100)

/-- The last constructor ran with this window size. -/
structure Hops (fftsize : ℕ) (g : Globals F) : Prop where
  audible : g.freqOffsetForAudibleMultiTone = hopOffset 12 fftsize
  nonAudible : g.freqOffsetForNonAudibleMultiTone = hopOffset 4 fftsize
  compression : g.freqOffsetForCompressionMultiTone = hopOffset 3 fftsize

/-- The base frequency of the custom mode, and its separation when the last constructor ran. -/
structure CustomHops (fftsize : ℕ) (baseFreq : F) (oxysSeparation : ℤ) (g : Globals F) : Prop where
  base : g.freqBaseForCustomMultiTone = baseFreq
  bins : g.nBinsOffsetForCustomMultiTone = 2 + oxysSeparation
  offset : g.freqOffsetForCustomMultiTone = hopOffset (2 + oxysSeparation) fftsize

omit [Doubles D] in
theorem fixedBins_init (fftsize : ℕ) (g : Globals F) : FixedBins (g.init fftsize) := ⟨rfl, rfl, rfl⟩

omit [Doubles D] in
theorem hops_init (fftsize : ℕ) (g : Globals F) : Hops fftsize (g.init fftsize) := ⟨rfl, rfl, rfl⟩

omit [Doubles D] in
theorem customHops_init (fftsize : ℕ) (g : Globals F) :
    CustomHops fftsize g.freqBaseForCustomMultiTone g.oxysSeparationForCustomMultiTone (g.init fftsize) :=
  ⟨rfl, rfl, rfl⟩

omit [Doubles D] in
/-- A constructor replaces all globals but the parameters of the custom mode. -/
theorem init_congr {g g' : Globals F} (hbase : g.freqBaseForCustomMultiTone = g'.freqBaseForCustomMultiTone)
    (hsep : g.oxysSeparationForCustomMultiTone = g'.oxysSeparationForCustomMultiTone) (fftsize : ℕ) :
    g.init fftsize = g'.init fftsize := by
  unfold init
  rw [hbase, hsep]

end Globals

section Reads

variable {F D : Type} [Doubles D] [Floats F D] [CFFTOoura F] {g g' : Globals F}

omit [CFFTOoura F] in
theorem nBinsOffset_congr (h : FixedBins g) (h' : FixedBins g') {mode : ℤ}
    (hcustom : mode = DECODING_MODE_CUSTOM → g.nBinsOffsetForCustomMultiTone = g'.nBinsOffsetForCustomMultiTone) :
    Analysis.nBinsOffset g mode = Analysis.nBinsOffset g' mode := by
  unfold Analysis.nBinsOffset
  rw [h.nonAudible, h'.nonAudible, h.audible, h'.audible, h.compression, h'.compression]
  by_cases hmode : mode = DECODING_MODE_CUSTOM
  · rw [hcustom hmode]
  · rw [if_neg hmode, if_neg hmode]

omit [CFFTOoura F] in
theorem evalToneBin_congr {mode : ℤ} (h : Analysis.nBinsOffset g mode = Analysis.nBinsOffset g' mode) :
    Analysis.evalToneBin g mode = Analysis.evalToneBin g' mode := by
  funext mDecoding L i
  unfold Analysis.evalToneBin
  rw [h]

/-- A frame of a message reads the hop of its mode, and no other global. -/
theorem AnalyzeToken_congr {mode : ℤ} (h : Analysis.nBinsOffset g mode = Analysis.nBinsOffset g' mode) (mDecoding : ℤ)
    (t : ℕ) (frame : ℕ → F) (A : Analysis F) :
    A.AnalyzeToken g mode mDecoding t frame = A.AnalyzeToken g' mode mDecoding t frame := by
  have hsum : ∀ (A : Analysis F) (k i : ℕ), (Analysis.toneSum g mode mDecoding A t k i : D) =
      Analysis.toneSum g' mode mDecoding A t k i := fun A k i => by
    unfold Analysis.toneSum
    rw [evalToneBin_congr h]
  have hstats : Analysis.ComputeStats g mode mDecoding t = Analysis.ComputeStats (F := F) g' mode mDecoding t := by
    funext A
    unfold Analysis.ComputeStats Analysis.frameStats
    simp only [hsum]
  unfold Analysis.AnalyzeToken Analysis.decodeBlock
  rw [hstats]

/-- What the decoder of all modes never listens to. -/
def NotCustom (c : DecoderClass) (C : Core F) : Prop := c = .AllMultiTone → C.mDecodingMode ≤ 2

omit [Doubles D] [Floats F D] [CFFTOoura F] in
theorem Outcome.mode_eq {c : DecoderClass} {C C' : Core F} {r : Option ℤ} (h : Outcome c C r C')
    (hc : c ≠ .AllMultiTone) : C'.mDecodingMode = C.mDecodingMode := by
  cases h with
  | quiet _ hm => exact hm
  | start _ _ hm =>
    unfold NextMode at hm
    rwa [if_neg hc] at hm
  | token _ _ _ _ hm => exact hm
  | finished _ _ hm => exact hm

omit [Doubles D] [Floats F D] [CFFTOoura F] in
theorem NotCustom.outcome {c : DecoderClass} {C C' : Core F} {r : Option ℤ} (hC : NotCustom c C)
    (h : Outcome c C r C') : NotCustom c C' := by
  intro hc
  cases h with
  | quiet _ hm => exact hm ▸ hC hc
  | start _ _ hm =>
    unfold NextMode at hm
    rw [if_pos hc] at hm
    exact hm.2
  | token _ _ _ _ hm => exact hm ▸ hC hc
  | finished _ _ hm => exact hm ▸ hC hc

omit [CFFTOoura F] in
theorem tokenMode_custom {c : DecoderClass} {C : Core F} (hC : NotCustom c C)
    (h : Core.tokenMode c C = DECODING_MODE_CUSTOM) : c = .CustomMultiTone := by
  unfold Core.tokenMode at h
  split at h
  · rename_i hc
    have := hC hc
    rw [h] at this
    exact absurd this (by decide)
  · cases c with
    | CustomMultiTone => rfl
    | AllMultiTone => contradiction
    | _ => exact absurd h (by decide)

/-- A frame of a decoder of this class. -/
theorem step_congr (h : FixedBins g) (h' : FixedBins g') {c : DecoderClass}
    (hcustom : c = .CustomMultiTone → g.nBinsOffsetForCustomMultiTone = g'.nBinsOffsetForCustomMultiTone)
    {C : Core F} (hC : NotCustom c C) (frame : ℕ → F) : Core.step c g frame C = Core.step c g' frame C := by
  have htoken : C.AnalyzeToken c g frame = C.AnalyzeToken c g' frame := by
    cases hc : c.isMultiTone with
    | false =>
      cases c with
      | Audible => rfl
      | NonAudible => rfl
      | _ => exact absurd hc (by decide)
    | true =>
      rw [Core.AnalyzeToken_multiTone hc, Core.AnalyzeToken_multiTone hc]
      exact AnalyzeToken_congr (nBinsOffset_congr h h' fun hm => hcustom (tokenMode_custom hC hm)) _ _ frame _
  unfold Core.step
  rw [htoken]

theorem DecodeAudioBuffer_congr (h : FixedBins g) (h' : FixedBins g') {d : Decoder F}
    (hcustom : d.cls = .CustomMultiTone → g.nBinsOffsetForCustomMultiTone = g'.nBinsOffsetForCustomMultiTone)
    (hd : NotCustom d.cls d.core) (audioBuffer : ℕ → F) (size : ℕ) :
    d.DecodeAudioBuffer g audioBuffer size = d.DecodeAudioBuffer g' audioBuffer size := by
  have hfeed : FrameBuffer.feed (Core.step d.cls g) audioBuffer size (d.frames, d.core) =
      FrameBuffer.feed (Core.step d.cls g') audioBuffer size (d.frames, d.core) :=
    FrameBuffer.frameLoop_congr (NotCustom d.cls)
      (fun frame C hC => ⟨step_congr h h' hcustom hC frame, hC.outcome (Core.step_outcome d.cls g frame C)⟩) _ _ _ hd
  unfold Decoder.DecodeAudioBuffer
  rw [hfeed]

omit [CFFTOoura F] in
theorem evaluatedBins_congr (h : FixedBins g) (h' : FixedBins g') {d : Decoder F}
    (hcustom : d.cls = .CustomMultiTone → g.nBinsOffsetForCustomMultiTone = g'.nBinsOffsetForCustomMultiTone) :
    Object.evaluatedBins g d = Object.evaluatedBins g' d := by
  unfold Object.evaluatedBins
  refine List.map_congr_left fun t ht => ?_
  have ht : t < d.cls.lanes := List.mem_range.1 ht
  have hmode : (if d.cls = .AllMultiTone then (t : ℤ) else d.cls.mode) = DECODING_MODE_CUSTOM →
      d.cls = .CustomMultiTone := fun hm => by
    by_cases hall : d.cls = .AllMultiTone
    · rw [if_pos hall] at hm
      rw [hall] at ht
      have ht : t < 3 := ht
      have hm : (t : ℤ) = 3 := hm
      omega
    · rw [if_neg hall] at hm
      cases hc : d.cls with
      | CustomMultiTone => rfl
      | AllMultiTone => exact absurd hc hall
      | _ =>
        rw [hc] at hm
        exact absurd hm (by decide)
  simp only [evalToneBin_congr (nBinsOffset_congr h h' fun hm => hcustom (hmode hm))]

/-! ## What the constructors set up -/

section New

variable (g g') (mem : Decoder F) (memRS : ReedSolomon) (samplingRate : F) (windowSize : ℕ)

omit [CFFTOoura F] in
theorem laneFreq_congr {c : DecoderClass} (hc : c ≠ .CustomMultiTone) (t : ℕ) :
    Decoder.laneFreq c (g.init windowSize) t = Decoder.laneFreq c (g'.init windowSize) t := by
  cases c with
  | CustomMultiTone => exact absurd rfl hc
  | AllMultiTone =>
    rcases t with _ | _ | t
    · rfl
    · rfl
    · rfl
  | _ => rfl

omit [CFFTOoura F] in
/-- Outside the custom mode a decoder depends on no globals. -/
theorem new_congr {c : DecoderClass} (hc : c ≠ .CustomMultiTone) :
    Decoder.new mem memRS c g samplingRate windowSize = Decoder.new mem memRS c g' samplingRate windowSize := by
  unfold Decoder.new Decoder.newAnalysis
  simp only [laneFreq_congr g g' windowSize hc]

omit [CFFTOoura F] in
theorem build_congr {mode : OxyMode} (hmode : mode ≠ .CUSTOM) :
    (OxyCore.build mem memRS mode samplingRate windowSize g).1 =
      (OxyCore.build mem memRS mode samplingRate windowSize g').1 := by
  have hc : OxyCore.decoderClass mode ≠ .CustomMultiTone := by
    cases mode with
    | CUSTOM => exact absurd rfl hmode
    | _ => decide
  unfold OxyCore.build
  rw [new_congr (g.init windowSize) (g'.init windowSize) mem memRS samplingRate windowSize hc]

omit [CFFTOoura F] in
theorem build_custom (hbase : g.freqBaseForCustomMultiTone = g'.freqBaseForCustomMultiTone)
    (hsep : g.oxysSeparationForCustomMultiTone = g'.oxysSeparationForCustomMultiTone) (mode : OxyMode) :
    OxyCore.build mem memRS mode samplingRate windowSize g =
      OxyCore.build mem memRS mode samplingRate windowSize g' := by
  unfold OxyCore.build
  rw [init_congr hbase hsep]

end New

end Reads

/-! ## Calls on the same object -/

namespace Object

variable {F D : Type} [Doubles D] [Floats F D] [CFFTOoura F]

/-- The parameters of the custom mode after a call. -/
def Call.custom (c : Call F) (own : F × ℤ) : F × ℤ :=
  match c with
  | .SetCustomBaseFreq _ _ baseFreq oxysSeparation => (baseFreq, oxysSeparation)
  | _ => own

/-- The globals that the call reads are as the calls on the same object left them: the parameters of the custom mode
are the object's `own`, and the hop offsets are of its window size. -/
def OwnGlobals (own : F × ℤ) (c : Call F) (o : Object F) (g : Globals F) : Prop :=
  match c, o with
  | .Configure _ _ (some (.inr .CUSTOM)) _, _ =>
    g.freqBaseForCustomMultiTone = own.1 ∧ g.oxysSeparationForCustomMultiTone = own.2
  | .EncodeDataToAudioBuffer _, .multi oxying =>
    Hops oxying.mEncoder.mWindowSize g ∧
      (oxying.mEncoder.cls = .CustomMultiTone → CustomHops oxying.mEncoder.mWindowSize own.1 own.2 g)
  | .DecodeAudioBuffer _ _, .multi oxying =>
    oxying.mDecoder.cls = .CustomMultiTone → g.nBinsOffsetForCustomMultiTone = 2 + own.2
  | _, _ => True

/-- An object that is the only one in use: `own` are the parameters of the custom mode. -/
structure Alone (own : F × ℤ) (o : Object F) (g : Globals F) : Prop where
  fixed : FixedBins g
  base : g.freqBaseForCustomMultiTone = own.1
  sep : g.oxysSeparationForCustomMultiTone = own.2
  mode : ∀ d, o.mDecoder = some d → NotCustom d.cls d.core
  old : ∀ oxying, o = .old oxying → oxying.mDecoder.cls ≠ .CustomMultiTone
  hops : ∀ oxying, o = .multi oxying → Hops oxying.mEncoder.mWindowSize g
  custom : ∀ oxying, o = .multi oxying →
    (oxying.mEncoder.cls = .CustomMultiTone ∨ oxying.mDecoder.cls = .CustomMultiTone) →
    CustomHops oxying.mEncoder.mWindowSize own.1 own.2 g ∧
      oxying.mDecoder.core.mDecodingMode = DECODING_MODE_CUSTOM ∧ oxying.mDecoder.cls = .CustomMultiTone

omit [CFFTOoura F] in
theorem alone_build {own : F × ℤ} {g : Globals F} (hbase : g.freqBaseForCustomMultiTone = own.1)
    (hsep : g.oxysSeparationForCustomMultiTone = own.2) (mem : Decoder F) (memRS : ReedSolomon) (mode : OxyMode)
    (samplingRate : F) (windowSize : ℕ) :
    Alone own (.multi (OxyCore.build mem memRS mode samplingRate windowSize g).1)
      (OxyCore.build mem memRS mode samplingRate windowSize g).2 := by
  have hcustom : CustomHops windowSize own.1 own.2 ((g.init windowSize).init windowSize) := by
    rw [← hbase, ← hsep]
    exact customHops_init windowSize (g.init windowSize)
  refine ⟨fixedBins_init _ _, hbase, hsep, ?_, fun x hx => absurd hx (by simp), ?_, ?_⟩
  · rintro d hd
    obtain rfl := Option.some.inj hd
    intro hall
    cases mode with
    | ALL => exact (by decide : (-1 : ℤ) ≤ 2)
    | _ => exact absurd hall (by simp [OxyCore.build, Decoder.new, OxyCore.decoderClass])
  · rintro oxying ho
    obtain rfl := Object.multi.inj ho
    exact hops_init windowSize (g.init windowSize)
  · rintro oxying ho hc
    obtain rfl := Object.multi.inj ho
    cases mode with
    | CUSTOM => exact ⟨hcustom, rfl, rfl⟩
    | _ =>
      exact absurd hc
        (by simp [OxyCore.build, Decoder.new, Encoder.new, OxyCore.decoderClass, OxyCore.encoderClass])

/-- The same answer and the same object, beside other calls and alone. -/
structure Alike (own : F × ℤ) (res res' : Answer F × Object F × Globals F) : Prop where
  answer : res'.1 = res.1
  object : res'.2.1 = res.2.1
  alone : Alone own res'.2.1 res'.2.2

section Calls

variable {own : F × ℤ} {o : Object F} {g g' : Globals F}

omit [CFFTOoura F] in
theorem configure_alike (h : Alone own o g') {mem : Decoder F} {memRS : ReedSolomon}
    {mode : Option (OldMode ⊕ OxyMode)} {samplingRate : F}
    (hown : OwnGlobals own (.Configure mem memRS mode samplingRate) o g) :
    Alike own (Configure mem memRS mode samplingRate g) (Configure mem memRS mode samplingRate g') := by
  rcases mode with _ | mode | mode
  · exact ⟨rfl, rfl, h.fixed, h.base, h.sep, fun d hd => absurd hd (by simp [Configure, mDecoder]),
      fun x hx => absurd hx (by simp [Configure]), fun x hx => absurd hx (by simp [Configure]),
      fun x hx => absurd hx (by simp [Configure])⟩
  · have hc : mode.decoderClass ≠ .CustomMultiTone ∧ mode.decoderClass ≠ .AllMultiTone := by
      cases mode with
      | AUDIBLEOLD => exact ⟨by decide, by decide⟩
      | NONAUDIBLEOLD => exact ⟨by decide, by decide⟩
    refine ⟨rfl, ?_, fixedBins_init _ _, h.base, h.sep, fun d hd => ?_, fun x hx => ?_,
      fun x hx => absurd hx (by simp [Configure]), fun x hx => absurd hx (by simp [Configure])⟩
    · simp only [Configure]
      rw [new_congr (g.init _) (g'.init _) mem memRS samplingRate _ hc.1]
    · obtain rfl := Option.some.inj hd
      exact fun hall => absurd hall hc.2
    · obtain rfl := Object.old.inj hx
      exact hc.1
  · by_cases hmode : mode = .CUSTOM
    · subst hmode
      have hown : g.freqBaseForCustomMultiTone = own.1 ∧ g.oxysSeparationForCustomMultiTone = own.2 := hown
      have hbuild := build_custom g g' mem memRS samplingRate (OxyCore.windowSizeFor samplingRate)
        (hown.1.trans h.base.symm) (hown.2.trans h.sep.symm) .CUSTOM
      refine ⟨rfl, ?_, alone_build h.base h.sep mem memRS .CUSTOM samplingRate _⟩
      exact congrArg (fun res => Object.multi res.1) hbuild.symm
    · have hbuild := build_congr g g' mem memRS samplingRate (OxyCore.windowSizeFor samplingRate) hmode
      refine ⟨rfl, ?_, alone_build h.base h.sep mem memRS mode samplingRate _⟩
      exact congrArg Object.multi hbuild.symm

omit [CFFTOoura F] in
/-- The object gets a new encoder and decoder for its own sampling rate and window size, or only the globals change. -/
theorem SetCustomBaseFreq_cases (mem : Decoder F) (memRS : ReedSolomon) (baseFreq : F) (oxysSeparation : ℤ)
    (o : Object F) :
    (∃ samplingRate windowSize, ∀ g : Globals F, SetCustomBaseFreq mem memRS baseFreq oxysSeparation o g =
      let (oxying, g) := OxyCore.build mem memRS .CUSTOM samplingRate windowSize { g with
        freqBaseForCustomMultiTone := baseFreq
        oxysSeparationForCustomMultiTone := oxysSeparation }
      (.multi oxying, g)) ∨
    (∀ x, o = .multi x → x.mDecoder.core.mDecodingMode ≠ DECODING_MODE_CUSTOM) ∧
      ∀ g : Globals F, SetCustomBaseFreq mem memRS baseFreq oxysSeparation o g = (o, { g with
        freqBaseForCustomMultiTone := baseFreq
        oxysSeparationForCustomMultiTone := oxysSeparation }) := by
  cases o with
  | created => exact Or.inr ⟨fun x hx => absurd hx (by simp), fun g => rfl⟩
  | old x =>
    by_cases hmode : x.mDecoder.core.mDecodingMode = DECODING_MODE_CUSTOM
    · refine Or.inl ⟨x.mSampleRate, x.mWindowSize, fun g => ?_⟩
      simp only [SetCustomBaseFreq, if_pos hmode]
    · refine Or.inr ⟨fun y hy => absurd hy (by simp), fun g => ?_⟩
      simp only [SetCustomBaseFreq, if_neg hmode]
  | multi x =>
    by_cases hmode : x.mDecoder.core.mDecodingMode = DECODING_MODE_CUSTOM
    · refine Or.inl ⟨x.mSampleRate, x.mWindowSize, fun g => ?_⟩
      simp only [SetCustomBaseFreq, OxyCore.SetCustomBaseFreq, if_pos hmode]
    · refine Or.inr ⟨fun y hy => ?_, fun g => ?_⟩
      · obtain rfl := Object.multi.inj hy
        exact hmode
      · simp only [SetCustomBaseFreq, OxyCore.SetCustomBaseFreq, if_neg hmode]

omit [CFFTOoura F] in
theorem setCustomBaseFreq_alike (h : Alone own o g') (mem : Decoder F) (memRS : ReedSolomon)
    (baseFreq : F) (oxysSeparation : ℤ) (r : Answer F) :
    Alike (baseFreq, oxysSeparation) (r, SetCustomBaseFreq mem memRS baseFreq oxysSeparation o g)
      (r, SetCustomBaseFreq mem memRS baseFreq oxysSeparation o g') := by
  rcases SetCustomBaseFreq_cases mem memRS baseFreq oxysSeparation o with ⟨samplingRate, windowSize, hset⟩ | ⟨hne, hset⟩
  · rw [hset, hset]
    refine ⟨rfl, ?_, alone_build rfl rfl mem memRS .CUSTOM samplingRate windowSize⟩
    exact congrArg (fun res => Object.multi res.1) (build_custom _ _ mem memRS _ _ rfl rfl .CUSTOM)
  · rw [hset, hset]
    exact ⟨rfl, rfl, ⟨h.fixed.audible, h.fixed.nonAudible, h.fixed.compression⟩, rfl, rfl, h.mode, h.old,
      fun x hx => ⟨(h.hops x hx).audible, (h.hops x hx).nonAudible, (h.hops x hx).compression⟩,
      fun x hx hc => absurd (h.custom x hx hc).2.1 (hne x hx)⟩

variable (own) in
omit [CFFTOoura F] in
/-- The frequencies of a symbol depend on the hop offsets, and in the custom mode on its parameters. -/
theorem mCurrentFreqs_congr {e : Encoder F} (h : Hops e.mWindowSize g) (h' : Hops e.mWindowSize g')
    (hcustom : e.cls = .CustomMultiTone → CustomHops e.mWindowSize own.1 own.2 g ∧
      CustomHops e.mWindowSize own.1 own.2 g') : e.mCurrentFreqs g = e.mCurrentFreqs g' := by
  have haudible := h.audible.trans h'.audible.symm
  have hnonAudible := h.nonAudible.trans h'.nonAudible.symm
  have hcompression := h.compression.trans h'.compression.symm
  have htone : Encoder.getToneFromIdx e.cls g = Encoder.getToneFromIdx e.cls g' := by
    cases hc : e.cls with
    | AudibleMultiTone => rfl
    | NonAudibleMultiTone => simp only [Encoder.getToneFromIdx, getToneFromIdxNonAudibleMultiTone, hnonAudible]
    | CompressionMultiTone => simp only [Encoder.getToneFromIdx, getToneFromIdxCompressionMultiTone, hcompression]
    | CustomMultiTone =>
      obtain ⟨hg, hg'⟩ := hcustom hc
      simp only [Encoder.getToneFromIdx, getToneFromIdxCustomMultiTone, hg.base, hg'.base, hg.offset, hg'.offset]
  have hoffset : Encoder.freqOffset e.cls g = Encoder.freqOffset e.cls g' := by
    cases e.cls with
    | AudibleMultiTone => exact haudible
    | NonAudibleMultiTone => exact hnonAudible
    | CompressionMultiTone => exact hcompression
    | CustomMultiTone => exact hnonAudible
  funext digit i
  simp only [Encoder.mCurrentFreqs, Encoder.getFreqsFromIdx, Encoder.hop, htone, hoffset]

omit [CFFTOoura F] in
theorem encode_alike (h : Alone own o g') {stringToEncode : List Char}
    (hown : OwnGlobals own (.EncodeDataToAudioBuffer stringToEncode) o g) {r : Answer F} {o' : Object F}
    (hcall : EncodeDataToAudioBuffer stringToEncode o g = some (r, o')) :
    EncodeDataToAudioBuffer stringToEncode o g' = some (r, o') ∧ Alone own o' g' := by
  cases o with
  | created => exact absurd hcall (by simp [EncodeDataToAudioBuffer])
  | old x =>
    obtain ⟨⟨code, e⟩, -, hres⟩ := Option.map_eq_some_iff.1 hcall
    obtain ⟨-, rfl⟩ := Prod.mk.inj hres
    refine ⟨hcall, h.fixed, h.base, h.sep, h.mode, fun y hy => ?_, fun y hy => absurd hy (by simp),
      fun y hy => absurd hy (by simp)⟩
    obtain rfl := Object.old.inj hy
    exact h.old x rfl
  | multi x =>
    obtain ⟨hhops, hcustom⟩ : Hops x.mEncoder.mWindowSize g ∧ (x.mEncoder.cls = .CustomMultiTone →
        CustomHops x.mEncoder.mWindowSize own.1 own.2 g) := hown
    obtain ⟨⟨code, e⟩, hdigits, hres⟩ := Option.map_eq_some_iff.1 hcall
    obtain ⟨rfl, rfl⟩ := Prod.mk.inj hres
    have hkeep := Encoder.digits_keeps hdigits
    have hcls : e.cls = x.mEncoder.cls := by rw [hkeep]
    have hwindow : e.mWindowSize = x.mEncoder.mWindowSize := by rw [hkeep]
    have hfreqs : e.mCurrentFreqs g = e.mCurrentFreqs g' := by
      refine mCurrentFreqs_congr own (hwindow ▸ hhops) (hwindow ▸ h.hops x rfl) fun hc => ?_
      rw [hwindow]
      rw [hcls] at hc
      exact ⟨hcustom hc, (h.custom x rfl (Or.inl hc)).1⟩
    refine ⟨?_, h.fixed, h.base, h.sep, h.mode, fun y hy => absurd hy (by simp), fun y hy => ?_,
      fun y hy hc => ?_⟩
    · simp only [EncodeDataToAudioBuffer, hdigits, hfreqs]
      rfl
    · obtain rfl := Object.multi.inj hy
      rw [show ({ x with mEncoder := e } : OxyCore F).mEncoder = e from rfl, hwindow]
      exact h.hops x rfl
    · obtain rfl := Object.multi.inj hy
      rw [show ({ x with mEncoder := e } : OxyCore F).mEncoder = e from rfl, hwindow]
      rw [show ({ x with mEncoder := e } : OxyCore F).mEncoder = e from rfl, hcls] at hc
      exact h.custom x rfl hc

omit [Doubles D] [CFFTOoura F] in
/-- Frames and polls change neither the class of the decoder nor the mode of a custom one. -/
theorem Alone.setDecoder (h : Alone own o g) {d d' : Decoder F} (hd : o.mDecoder = some d) (hcls : d'.cls = d.cls)
    (hmode : d.cls ≠ .AllMultiTone → d'.core.mDecodingMode = d.core.mDecodingMode)
    (hcustom : NotCustom d'.cls d'.core) : Alone own (o.setDecoder d') g := by
  cases o with
  | created => exact h
  | old x =>
    obtain rfl := Option.some.inj hd
    refine ⟨h.fixed, h.base, h.sep, fun e he => ?_, fun y hy => ?_,
      fun y hy => absurd hy (by simp [Object.setDecoder]), fun y hy => absurd hy (by simp [Object.setDecoder])⟩
    · obtain rfl := Option.some.inj he
      exact hcustom
    · obtain rfl := Object.old.inj hy
      exact fun hc => h.old x rfl (hcls ▸ hc)
  | multi x =>
    obtain rfl := Option.some.inj hd
    refine ⟨h.fixed, h.base, h.sep, fun e he => ?_, fun y hy => absurd hy (by simp [Object.setDecoder]),
      fun y hy => ?_, fun y hy hc => ?_⟩
    · obtain rfl := Option.some.inj he
      exact hcustom
    · obtain rfl := Object.multi.inj hy
      exact h.hops x rfl
    · obtain rfl := Object.multi.inj hy
      have hc : x.mEncoder.cls = .CustomMultiTone ∨ d'.cls = .CustomMultiTone := hc
      rw [hcls] at hc
      obtain ⟨hhops, hx, hxcls⟩ := h.custom x rfl hc
      refine ⟨hhops, ?_, hcls.trans hxcls⟩
      exact (hmode (by rw [hxcls]; decide)).trans hx

theorem decode_alike (hg : FixedBins g) (h : Alone own o g') {audioBuffer : ℕ → F} {size : ℕ}
    (hown : OwnGlobals own (.DecodeAudioBuffer audioBuffer size) o g) {d : Decoder F} (hd : o.mDecoder = some d) :
    d.DecodeAudioBuffer g audioBuffer size = d.DecodeAudioBuffer g' audioBuffer size ∧
      evaluatedBins g d = evaluatedBins g' d ∧
      Alone own (o.setDecoder (d.DecodeAudioBuffer g' audioBuffer size).2) g' := by
  have hbins : d.cls = .CustomMultiTone → g.nBinsOffsetForCustomMultiTone = g'.nBinsOffsetForCustomMultiTone := by
    intro hc
    cases o with
    | created => exact absurd hd (by simp [mDecoder])
    | old x =>
      obtain rfl := Option.some.inj hd
      exact absurd hc (h.old x rfl)
    | multi x =>
      obtain rfl := Option.some.inj hd
      have hown : g.nBinsOffsetForCustomMultiTone = 2 + own.2 := hown hc
      exact hown.trans (h.custom x rfl (Or.inr hc)).1.bins.symm
  have hmode := h.mode d hd
  obtain ⟨r, -, ho⟩ := Decoder.decodeAudioBuffer_outcome g' audioBuffer size d
  exact ⟨DecodeAudioBuffer_congr hg h.fixed hbins hmode audioBuffer size, evaluatedBins_congr hg h.fixed hbins,
    h.setDecoder hd rfl ho.mode_eq (hmode.outcome ho)⟩

/-- A call that reads its own globals has the same answer alone. -/
theorem call_alike (hg : FixedBins g) (h : Alone own o g') {c : Call F} (hown : OwnGlobals own c o g)
    {res : Answer F × Object F × Globals F} (hcall : call c o g = some res) :
    ∃ res', call c o g' = some res' ∧ Alike (c.custom own) res res' := by
  cases c with
  | Configure mem memRS mode samplingRate =>
    obtain rfl := Option.some.inj hcall
    exact ⟨_, rfl, configure_alike h hown⟩
  | SetCustomBaseFreq mem memRS baseFreq oxysSeparation =>
    obtain rfl := Option.some.inj hcall
    exact ⟨_, rfl, setCustomBaseFreq_alike h mem memRS baseFreq oxysSeparation _⟩
  | EncodeDataToAudioBuffer stringToEncode =>
    obtain ⟨⟨r, o'⟩, hencode, rfl⟩ := Option.map_eq_some_iff.1 hcall
    obtain ⟨hencode', halone⟩ := encode_alike h hown hencode
    exact ⟨(r, o', g'), Option.map_eq_some_iff.2 ⟨_, hencode', rfl⟩, rfl, rfl, halone⟩
  | DecodeAudioBuffer audioBuffer size =>
    obtain ⟨d, hd, rfl⟩ := Option.map_eq_some_iff.1 hcall
    obtain ⟨hdecode, hbins, halone⟩ := decode_alike hg h hown hd
    refine ⟨_, Option.map_eq_some_iff.2 ⟨d, hd, rfl⟩, ?_, ?_, halone⟩
    · rw [hdecode, hbins]
    · rw [hdecode]
  | GetDecodedData =>
    obtain ⟨d, hd, hdata⟩ := Option.bind_eq_some_iff.1 hcall
    obtain ⟨⟨ret, s, d'⟩, hget, rfl⟩ := Option.map_eq_some_iff.1 hdata
    obtain ⟨-, -, hcls, -, hcore⟩ := Decoder.getDecodedData_inv hget
    have halone : Alone own (o.setDecoder d') g' := by
      refine h.setDecoder hd hcls (fun _ => by rw [hcore]) fun hc => ?_
      rw [hcore]
      exact h.mode d hd (hcls ▸ hc)
    refine ⟨(.data ret s, o.setDecoder d', g'), Option.bind_eq_some_iff.2 ⟨d, hd, ?_⟩, rfl, rfl, halone⟩
    rw [hget]
    rfl

theorem call_fixedBins (hg : FixedBins g) {c : Call F} {res : Answer F × Object F × Globals F}
    (hcall : call c o g = some res) : FixedBins res.2.2 := by
  cases c with
  | Configure mem memRS mode samplingRate =>
    obtain rfl := Option.some.inj hcall
    rcases mode with _ | mode | mode
    · exact hg
    · exact fixedBins_init _ _
    · exact fixedBins_init _ _
  | SetCustomBaseFreq mem memRS baseFreq oxysSeparation =>
    obtain rfl := Option.some.inj hcall
    rcases SetCustomBaseFreq_cases mem memRS baseFreq oxysSeparation o with ⟨samplingRate, windowSize, hset⟩ | ⟨-, hset⟩
    · rw [hset]
      exact fixedBins_init _ _
    · rw [hset]
      exact ⟨hg.audible, hg.nonAudible, hg.compression⟩
  | EncodeDataToAudioBuffer stringToEncode =>
    obtain ⟨-, -, rfl⟩ := Option.map_eq_some_iff.1 hcall
    exact hg
  | DecodeAudioBuffer audioBuffer size =>
    obtain ⟨-, -, rfl⟩ := Option.map_eq_some_iff.1 hcall
    exact hg
  | GetDecodedData =>
    obtain ⟨_, -, hdata⟩ := Option.bind_eq_some_iff.1 hcall
    obtain ⟨_, -, rfl⟩ := Option.map_eq_some_iff.1 hdata
    exact hg

end Calls

end Object

/-! ## Runs -/

namespace Objects

open Object

variable {ι F D : Type} [DecidableEq ι] [Doubles D] [Floats F D] [CFFTOoura F] {A : ι}
  {log : List ((ι × Call F) × Answer F)} {s : Objects ι F}

/-- The parameters of the custom mode that the calls on `A` have set. -/
def ownParameters (A : ι) (log : List ((ι × Call F) × Answer F)) : F × ℤ :=
  log.foldl (fun own e => if e.1.1 = A then e.1.2.custom own else own)
    (Globals.initial.freqBaseForCustomMultiTone, (Globals.initial : Globals F).oxysSeparationForCustomMultiTone)

/-- Every call on `A` reads globals that the calls on `A` have left so. -/
def OwnRun (A : ι) (log : List ((ι × Call F) × Answer F)) : Prop :=
  ∀ l c r s, l ++ [((A, c), r)] <+: log → Run step initial l s →
    OwnGlobals (ownParameters A l) c (s.object A) s.globals

omit [Doubles D] [CFFTOoura F] in
theorem ownParameters_snoc (log : List ((ι × Call F) × Answer F)) (i : ι) (c : Call F) (r : Answer F) :
    ownParameters A (log ++ [((i, c), r)]) =
      if i = A then c.custom (ownParameters A log) else ownParameters A log := by
  unfold ownParameters
  rw [List.foldl_append]
  rfl

omit [Doubles D] [CFFTOoura F] in
theorem alone_initial : Alone (ownParameters A []) (Object.created : Object F) Globals.initial :=
  ⟨⟨rfl, rfl, rfl⟩, rfl, rfl, fun d hd => absurd hd (by simp [mDecoder]), fun x hx => absurd hx (by simp),
    fun x hx => absurd hx (by simp), fun x hx => absurd hx (by simp)⟩

theorem step_inv {i : ι} {c : Call F} {r : Answer F} {s' : Objects ι F} (h : step (i, c) s = some (r, s')) :
    ∃ o, call c (s.object i) s.globals = some (r, o, s'.globals) ∧ s'.object = Function.update s.object i o := by
  obtain ⟨⟨r, o, g⟩, hcall, hres⟩ := Option.map_eq_some_iff.1 h
  obtain ⟨rfl, rfl⟩ := Prod.mk.inj hres
  exact ⟨o, hcall, rfl⟩

theorem step_of_call {i : ι} {c : Call F} {r : Answer F} {o : Object F} {g : Globals F}
    (h : call c (s.object i) s.globals = some (r, o, g)) :
    step (i, c) s = some (r, ⟨g, Function.update s.object i o⟩) := by
  unfold step
  rw [h]
  rfl

/-- While every call on `A` reads its own globals, the calls on `A` alone have the same answers: the same frequencies
of every symbol, and the same bins in every decoded buffer. -/
theorem handles_separate (h : Run step initial log s) (hown : OwnRun A log) :
    ∃ t : Objects ι F, Run step initial (log.filter fun e => e.1.1 = A) t ∧ t.object A = s.object A := by
  refine (h.filter_rule (t := initial) (fun c => decide (c.1 = A))
    (fun log c s => OwnGlobals (ownParameters A log) c.2 (s.object A) s.globals)
    (fun log s t => t.object A = s.object A ∧ FixedBins s.globals ∧
      Alone (ownParameters A log) (t.object A) t.globals)
    ⟨rfl, ⟨rfl, rfl, rfl⟩, alone_initial⟩ ?_ ?_ ?_).imp fun t ht => ⟨ht.1, ht.2.1⟩
  · rintro log s' t ⟨i, c⟩ r s'' hi hok ⟨hobject, hfixed, halone⟩ hstep
    obtain rfl : i = A := of_decide_eq_true hi
    obtain ⟨o, hcall, hs''⟩ := step_inv hstep
    rw [hobject] at halone
    obtain ⟨⟨r', o', g'⟩, hcall', hanswer, ho, halone'⟩ := call_alike hfixed halone hok hcall
    obtain rfl : r' = r := hanswer
    obtain rfl : o' = o := ho
    have hself : ∀ f : ι → Object F, Function.update f i o' i = o' := fun f => Function.update_self i o' f
    refine ⟨_, step_of_call (by rw [hobject]; exact hcall'), ?_, call_fixedBins hfixed hcall, ?_⟩
    · rw [hs'']
      exact (hself _).trans (hself _).symm
    · have hobj : (⟨g', Function.update t.object i o'⟩ : Objects ι F).object i = o' := hself t.object
      rw [ownParameters_snoc, if_pos rfl, hobj]
      exact halone'
  · rintro log s' t ⟨i, c⟩ r s'' hi ⟨hobject, hfixed, halone⟩ hstep
    have hne : i ≠ A := of_decide_eq_false hi
    obtain ⟨o, hcall, hs''⟩ := step_inv hstep
    rw [ownParameters_snoc, if_neg hne, hs'', Function.update_of_ne hne.symm]
    exact ⟨hobject, call_fixedBins hfixed hcall, halone⟩
  · rintro l ⟨i, c⟩ r s1 hl hrun hi
    obtain rfl : i = A := of_decide_eq_true hi
    exact hown l c r s1 hl hrun

/-! ## Two objects in the custom mode -/

theorem ownRun_nil : OwnRun A ([] : List ((ι × Call F) × Answer F)) := fun l c r s hl =>
  absurd (List.prefix_nil.1 hl) (by simp)

theorem OwnRun.snoc (h : OwnRun A log) (hrun : Run step initial log s) {i : ι} {c : Call F} {r : Answer F}
    (hc : i = A → OwnGlobals (ownParameters A log) c (s.object A) s.globals) :
    OwnRun A (log ++ [((i, c), r)]) := by
  rintro l c' r' s' hl hrun'
  rcases snoc_prefix_snoc.1 hl with ⟨rfl, hcall⟩ | hl
  · obtain ⟨hi, rfl⟩ := Prod.mk.inj (Prod.mk.inj hcall).1
    obtain rfl := hrun.deterministic hrun'
    exact hc hi.symm
  · exact h l c' r' s' hl hrun'

/-- The object `true` is configured in the custom mode, a call on the object `false` follows, and `true` encodes. -/
noncomputable def customBeside (c : Call ℝ) (ret r : Answer ℝ) : List ((Bool × Call ℝ) × Answer ℝ) :=
  [((true, .Configure default default (some (.inr .CUSTOM)) 44100), .ret 0)] ++ [((false, c), ret)] ++
    [((true, .EncodeDataToAudioBuffer "000000000".toList), r)]

/-- The object after its configuration. -/
noncomputable def customObject : OxyCore ℝ :=
  (OxyCore.Configure default default .CUSTOM 44100 Globals.initial).1

/-- The globals after its configuration. -/
noncomputable def customGlobals : Globals ℝ :=
  (OxyCore.Configure default default .CUSTOM (44100 : ℝ) Globals.initial).2

theorem run_custom : Run step (initial : Objects Bool ℝ)
    ([] ++ [((true, .Configure default default (some (.inr .CUSTOM)) 44100), .ret 0)])
    ⟨customGlobals, Function.update initial.object true (.multi customObject)⟩ :=
  .call .nil (step_of_call rfl)

/-- What the configured object sends, with the globals of the moment. -/
theorem encode_custom : ∃ (T : List ℤ) (o : Object ℝ), T ≠ [] ∧ ∀ g : Globals ℝ,
    call (.EncodeDataToAudioBuffer "000000000".toList) (.multi customObject) g =
      some (.encoded (T.mapIdx fun i digit => [(customObject.mEncoder.mCurrentFreqs g digit i).1,
        (customObject.mEncoder.mCurrentFreqs g digit i).2]), o, g) := by
  obtain ⟨message, T, e', hT, hlen, -⟩ := Decoder.digits_spec customObject.mEncoder
    (show "000000000".toList.length = 9 by decide) (by simp [InAlphabet])
  refine ⟨T, .multi { customObject with mEncoder := e' }, fun h0 => ?_, fun g => ?_⟩
  · rw [h0] at hlen
    exact absurd hlen (by decide)
  · simp only [call, EncodeDataToAudioBuffer, hT]
    rw [Encoder.digits_keeps hT]
    rfl

/-- Another object configured with the same sampling rate leaves the hop offsets as they were. -/
theorem handles_separate_compression :
    ∃ (r : Answer ℝ) (s t : Objects Bool ℝ),
      Run step initial (customBeside (.Configure default default (some (.inr .COMPRESSION)) 44100) (.ret 0) r) s ∧
        Run step initial ((customBeside (.Configure default default (some (.inr .COMPRESSION)) 44100) (.ret 0) r).filter
          fun e => e.1.1 = true) t ∧ t.object true = s.object true := by
  obtain ⟨T, o, -, hencode⟩ := encode_custom
  have hrun := Run.call run_custom (step_of_call (i := false)
    (c := .Configure default default (some (.inr .COMPRESSION)) 44100) rfl)
  have hrun' := Run.call hrun (step_of_call (i := true) (hencode _))
  have hown : ∀ r, OwnRun true
      (customBeside (.Configure default default (some (.inr .COMPRESSION)) 44100) (.ret 0) r) := fun r => by
    have h1 := ownRun_nil.snoc (A := true) (c := .Configure default default (some (.inr .CUSTOM)) (44100 : ℝ))
      (i := true) (r := .ret 0) .nil fun _ => ⟨rfl, rfl⟩
    have h2 := h1.snoc (i := false) (c := .Configure default default (some (.inr .COMPRESSION)) 44100)
      (r := .ret 0) run_custom fun h => absurd h (by decide)
    exact h2.snoc hrun fun _ => ⟨hops_init _ _, fun _ => customHops_init _ _⟩
  obtain ⟨t, ht, hobject⟩ := handles_separate hrun' (hown _)
  exact ⟨_, _, t, hrun', ht, hobject⟩

/-- The grids of two base frequencies have no tone in common. -/
theorem toneGrid_base (distance : ℝ) (idx : ℤ) :
    toneGrid 12000 distance idx 44100 2048 ≠ toneGrid 15000 distance idx 44100 2048 := by
  have h12 : Globals.round (12000 / (44100 / (2048 : ℕ)) : ℝ) = 557 := by
    rw [round_of_nonneg (by positivity), Int.floor_eq_iff]
    norm_num
  have h15 : Globals.round (15000 / (44100 / (2048 : ℕ)) : ℝ) = 697 := by
    rw [round_of_nonneg (by positivity), Int.floor_eq_iff]
    norm_num
  intro h
  rw [toneGrid_eq, toneGrid_eq, h12, h15] at h
  have hcast := mul_right_cancel₀ (by norm_num) h
  have := Int.cast_injective hcast
  omega

/-- The base frequency set on another object is that of the next symbols. -/
theorem handles_interfere :
    ∃ (r : Answer ℝ) (s : Objects Bool ℝ),
      Run step initial (customBeside (.SetCustomBaseFreq default default 15000 1) (.ret 0) r) s ∧
        ¬ ∃ t : Objects Bool ℝ, Run step initial
          ((customBeside (.SetCustomBaseFreq default default 15000 1) (.ret 0) r).filter fun e => e.1.1 = true) t := by
  obtain ⟨T, o, hT, hencode⟩ := encode_custom
  have hrun := Run.call run_custom (step_of_call (i := false) (c := .SetCustomBaseFreq default default 15000 1) rfl)
  have hrun' := Run.call hrun (step_of_call (i := true) (hencode _))
  refine ⟨_, _, hrun', ?_⟩
  rintro ⟨t, ht⟩
  have ht : Run step (initial : Objects Bool ℝ)
      (([] ++ [((true, .Configure default default (some (.inr .CUSTOM)) 44100), .ret 0)]) ++
        [((true, .EncodeDataToAudioBuffer "000000000".toList), _)]) t := ht
  obtain ⟨t', ht', hstep⟩ := ht.snoc_inv
  obtain rfl := run_custom.deterministic ht'
  obtain ⟨o', hcall, -⟩ := step_inv hstep
  have hsame := (hencode customGlobals).symm.trans hcall
  obtain ⟨digit, T', rfl⟩ := List.exists_cons_of_ne_nil hT
  rw [List.mapIdx_cons, List.mapIdx_cons] at hsame
  have hfreqs := Answer.encoded.inj (congrArg Prod.fst (Option.some.inj hsame))
  have hfreq := (List.cons.inj (List.cons.inj hfreqs).1).1
  have htone : ∀ baseFreq : ℝ, (customObject.mEncoder.mCurrentFreqs
      { customGlobals with freqBaseForCustomMultiTone := baseFreq } digit 0).1 = toneGrid baseFreq
        (customGlobals.freqOffsetForCustomMultiTone * Floats.lit 3) (getIdxsFromIdx digit).1 44100 2048 := by
    intro baseFreq
    have hwindow : customObject.mEncoder.mWindowSize = 2048 := windowSizeFor_44100
    rw [← hwindow]
    rfl
  have hbase : toneGrid 15000 (customGlobals.freqOffsetForCustomMultiTone * Floats.lit 3) (getIdxsFromIdx digit).1
      44100 2048 = toneGrid 12000 (customGlobals.freqOffsetForCustomMultiTone * Floats.lit 3) (getIdxsFromIdx digit).1
      44100 2048 := by
    rw [← htone, ← htone]
    exact hfreq.symm
  exact toneGrid_base _ _ hbase.symm

end Objects

end Undertone
