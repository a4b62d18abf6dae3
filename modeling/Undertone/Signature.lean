import Undertone.Capacity
import Undertone.Lib.Run

/-!
# The audio signature

An encoder keeps the number of the samples of its signature and the pointer to them apart, and `SetAudioSignature`
changes them on separate paths. As long as they belong together the encoder is one that holds the samples themselves
(`SignatureKept.mixes`). The path for a negative size with a buffer releases the samples of a signature that is set and
keeps their number (`setAudioSignature_cases`): they belong together in a whole run exactly when this path is taken with
no signature set (`signature_kept_iff`).
-/

namespace Undertone

open CountedLoop BoundedArray Globals

/-- An encoder with the two members for its signature; the samples in `encoder` itself are not read. -/
structure SignedEncoder (F : Type) where
  encoder : AudioEncoder F
  mnAudioSignatureSamples : ℤ
  /-- The null pointer, or the array that it points to. -/
  mAudioSignature : Option (List F)

namespace SignedEncoder

open AudioEncoder (Filling int transmit writeDigits addSounds clip)

variable {F D : Type} [Doubles D] [Floats F D]

/-- The constructor, run on memory that `new` left as it was. -/
def new (memReedSolomon : ReedSolomon) (memAudio : ℕ → F) (c : EncoderClass) (samplingRate : F)
    (buffsize windowSize : ℕ) :
    SignedEncoder F where
  encoder := .new memReedSolomon memAudio c samplingRate buffsize windowSize
  mnAudioSignatureSamples := 0
  mAudioSignature := none

/-- The samples of a whole transmission, `(int)(numTotalTokens * (durToken*mSampleRate))`. -/
def maxSignature (e : AudioEncoder F) : ℤ := int (ofInt numTotalTokens * (durToken * e.mSampleRate))

/-- `SetAudioSignature(samplesSize, samplesBuffer)`, with a buffer of at least `samplesSize` samples or a null pointer;
it returns 0. There is no array of negative length. -/
def SetAudioSignature (samplesSize : ℤ) (samplesBuffer : Option (ℕ → F)) (s : SignedEncoder F) :
    Option (SignedEncoder F) :=
  match samplesBuffer with
  | none => some { s with mnAudioSignatureSamples := 0, mAudioSignature := none }
  | some buffer =>
    if samplesSize = 0 then some { s with mnAudioSignatureSamples := 0, mAudioSignature := none }
    else
      let s := if s.mnAudioSignatureSamples > 0 then { s with mAudioSignature := none } else s
      if samplesSize > 0 then
        let n := min samplesSize (maxSignature s.encoder)
        if n < 0 then none
        else some { s with mnAudioSignatureSamples := n, mAudioSignature := some ((List.range n.toNat).map buffer) }
      else some s

/-- Two of the classes test the pointer as well as the number. -/
def testsPointer : EncoderClass → Bool
  | .NonAudibleMultiTone | .CustomMultiTone => true
  | .AudibleMultiTone | .CompressionMultiTone => false

/-- The audio signature, over at most the samples of the transmission. -/
def addSignature (s : SignedEncoder F) (st : Filling F D) : Option (Filling F D) :=
  let e := s.encoder
  if s.mnAudioSignatureSamples > 0 ∧ (testsPointer e.cls → s.mAudioSignature.isSome) then do
    let sizeToFill :=
      if s.mnAudioSignatureSamples > st.numSamples then st.numSamples else s.mnAudioSignatureSamples.toNat
    let audio ← forUpM 0 sizeToFill (fun i audio => do
      let x ← get e.mNumMaxSamplesEncodedString audio i
      let samples ← s.mAudioSignature
      let y ← samples[i]?
      put e.mNumMaxSamplesEncodedString audio i (clip (x + y))) st.audio
    return { st with audio := audio }
  else some st

section Calls

variable [Synthesis F D]

/-- `EncodeDataToAudioBuffer` of `AudioEncoder`, with the signature of the two members. -/
def EncodeDataToAudioBuffer (w : Surroundings F) (stringToEncode : List Char) (type : ℤ) (melodyString : List Char)
    (s : SignedEncoder F) : Option (ℕ × SignedEncoder F) := do
  let e := s.encoder
  let audio := fun i => if i < e.mNumMaxSamplesEncodedString then Floats.lit 0 else e.mAudioBufferEncodedString i
  let (digits, codec) ← transmit stringToEncode e
  let st ← writeDigits w.globals e digits audio
  let st ← addSounds w type melodyString digits e st
  let st ← addSignature s st
  return (st.numSamples, { s with encoder := { e with
    mReedSolomon := codec
    mAudioBufferEncodedString := st.audio
    mNumSamplesEncodedString := st.numSamples
    mReadIndexEncodedAudioBuffer := 0 } })

inductive Call (F : Type)
  | SetAudioSignature (samplesSize : ℤ) (samplesBuffer : Option (ℕ → F))
  | EncodeDataToAudioBuffer (w : Surroundings F) (stringToEncode : List Char) (type : ℤ) (melodyString : List Char)

def call : Call F → SignedEncoder F → Option (ℕ × SignedEncoder F)
  | .SetAudioSignature samplesSize samplesBuffer, s =>
    (s.SetAudioSignature samplesSize samplesBuffer).map fun s => (0, s)
  | .EncodeDataToAudioBuffer w stringToEncode type melodyString, s =>
    s.EncodeDataToAudioBuffer w stringToEncode type melodyString

/-! ## What the two members stand for -/

/-- The signature in force after the calls of `log`: no call with a negative size and a buffer is accepted. -/
def accepted (log : List (Call F × ℕ)) : List F :=
  log.foldl (fun samples entry =>
    match entry.1 with
    | .SetAudioSignature _ none => []
    | .SetAudioSignature samplesSize (some buffer) =>
      if 0 ≤ samplesSize then (List.range samplesSize.toNat).map buffer else samples
    | .EncodeDataToAudioBuffer _ _ _ _ => samples) []

/-- The encoder with these samples for its signature. -/
def withSignature (e : AudioEncoder F) (samples : List F) : AudioEncoder F :=
  { e with mAudioSignature := samples.take (maxSignature e).toNat }

/-- The bookkeeping is consistent: the number is positive exactly when the pointer points to so many samples, so that
all that is read while mixing exists, and what is mixed in is the accepted signature, as far as a transmission goes. -/
structure SignatureKept (log : List (Call F × ℕ)) (s : SignedEncoder F) : Prop where
  consistent : 0 < s.mnAudioSignatureSamples ↔
    ∃ samples, s.mAudioSignature = some samples ∧ 0 < samples.length ∧ samples.length = s.mnAudioSignatureSamples
  reads : ∀ i : ℕ, i < s.mnAudioSignatureSamples → ∃ samples, s.mAudioSignature = some samples ∧ i < samples.length
  mixes : ∀ st : Filling F D, s.addSignature st = (withSignature s.encoder (accepted log)).addSignature st

/-! ## One call -/

section Steps

variable {s s' : SignedEncoder F} {log : List (Call F × ℕ)} {r : ℕ}

omit [Synthesis F D] in
/-- A signature is taken away, or a new one is accepted, or the size is negative: then the samples of one that is set
are released and their number stays. -/
theorem setAudioSignature_cases {samplesSize : ℤ} {samplesBuffer : Option (ℕ → F)}
    (h : s.SetAudioSignature samplesSize samplesBuffer = some s') :
    (samplesBuffer = none ∨ samplesSize = 0) ∧ s' = { s with mnAudioSignatureSamples := 0, mAudioSignature := none } ∨
      (∃ buffer, samplesBuffer = some buffer ∧ 0 < samplesSize ∧ 0 ≤ min samplesSize (maxSignature s.encoder) ∧
        s' = { s with
          mnAudioSignatureSamples := min samplesSize (maxSignature s.encoder)
          mAudioSignature := some ((List.range (min samplesSize (maxSignature s.encoder)).toNat).map buffer) }) ∨
      ∃ buffer, samplesBuffer = some buffer ∧ samplesSize < 0 ∧
        s' = if s.mnAudioSignatureSamples > 0 then { s with mAudioSignature := none } else s := by
  unfold SetAudioSignature at h
  cases samplesBuffer with
  | none => exact Or.inl ⟨Or.inl rfl, (Option.some.inj h).symm⟩
  | some buffer =>
    simp only at h
    by_cases h0 : samplesSize = 0
    · rw [if_pos h0] at h
      exact Or.inl ⟨Or.inr h0, (Option.some.inj h).symm⟩
    · have hencoder : (if s.mnAudioSignatureSamples > 0 then { s with mAudioSignature := none } else s).encoder =
          s.encoder := by
        split <;> rfl
      rw [if_neg h0, hencoder] at h
      by_cases hpos : samplesSize > 0
      · rw [if_pos hpos] at h
        by_cases hneg : min samplesSize (maxSignature s.encoder) < 0
        · rw [if_pos hneg] at h
          exact absurd h (by simp)
        · rw [if_neg hneg] at h
          refine Or.inr (Or.inl ⟨buffer, rfl, hpos, not_lt.1 hneg, ?_⟩)
          rw [← Option.some.inj h]
      · rw [if_neg hpos] at h
        exact Or.inr (Or.inr ⟨buffer, rfl, by omega, (Option.some.inj h).symm⟩)

/-- An encoding changes neither of the two members, nor the sampling rate. -/
theorem encode_keeps {w : Surroundings F} {stringToEncode : List Char} {type : ℤ} {melodyString : List Char}
    (h : s.EncodeDataToAudioBuffer w stringToEncode type melodyString = some (r, s')) :
    s'.mnAudioSignatureSamples = s.mnAudioSignatureSamples ∧ s'.mAudioSignature = s.mAudioSignature ∧
      maxSignature s'.encoder = maxSignature s.encoder := by
  obtain ⟨⟨digits, codec⟩, -, hrest⟩ := Option.bind_eq_some_iff.1 h
  obtain ⟨st, -, hrest⟩ := Option.bind_eq_some_iff.1 hrest
  obtain ⟨st', -, hrest⟩ := Option.bind_eq_some_iff.1 hrest
  obtain ⟨st'', -, hrest⟩ := Option.bind_eq_some_iff.1 hrest
  obtain ⟨-, rfl⟩ := Prod.mk.inj (Option.some.inj hrest)
  exact ⟨rfl, rfl, rfl⟩

/-- An encoding is defined where it is for the encoder that mixes the same samples. -/
theorem encode_isSome {samples : List F}
    (hmixes : ∀ st : Filling F D, s.addSignature st = (withSignature s.encoder samples).addSignature st)
    (w : Surroundings F) (stringToEncode : List Char) (type : ℤ) (melodyString : List Char) :
    (s.EncodeDataToAudioBuffer w stringToEncode type melodyString).isSome ↔
      ((withSignature s.encoder samples).EncodeDataToAudioBuffer w stringToEncode type melodyString).isSome := by
  have htransmit : transmit stringToEncode (withSignature s.encoder samples) = transmit stringToEncode s.encoder := rfl
  have hwrite : ∀ digits audio, writeDigits (D := D) w.globals (withSignature s.encoder samples) digits audio =
      writeDigits w.globals s.encoder digits audio := fun _ _ => rfl
  have hsounds : ∀ digits (st : Filling F D),
      addSounds w type melodyString digits (withSignature s.encoder samples) st =
        addSounds w type melodyString digits s.encoder st := fun _ _ => rfl
  have hmax : (withSignature s.encoder samples).mNumMaxSamplesEncodedString =
      s.encoder.mNumMaxSamplesEncodedString := rfl
  have hbuffer : (withSignature s.encoder samples).mAudioBufferEncodedString =
      s.encoder.mAudioBufferEncodedString := rfl
  unfold EncodeDataToAudioBuffer AudioEncoder.EncodeDataToAudioBuffer
  simp only [Option.bind_eq_bind, htransmit, hwrite, hsounds, hmax, hbuffer, hmixes]
  simp only [Option.isSome_bind]
  rfl

/-- The two members stand for the accepted signature; with no samples the pointer may be null. -/
structure Holds (log : List (Call F × ℕ)) (s : SignedEncoder F) : Prop where
  count : s.mnAudioSignatureSamples = ((accepted log).take (maxSignature s.encoder).toNat).length
  pointer : s.mAudioSignature = some ((accepted log).take (maxSignature s.encoder).toNat) ∨
    s.mAudioSignature = none ∧ (accepted log).take (maxSignature s.encoder).toNat = []

/-- The call takes no negative size while a signature is set. -/
def Sized (c : Call F) (s : SignedEncoder F) : Prop :=
  ∀ samplesSize buffer, c = .SetAudioSignature samplesSize (some buffer) → samplesSize < 0 →
    ¬0 < s.mnAudioSignatureSamples

omit [Doubles D] [Floats F D] [Synthesis F D] in
theorem accepted_snoc (log : List (Call F × ℕ)) (c : Call F) (r : ℕ) : accepted (log ++ [(c, r)]) =
    match c with
    | .SetAudioSignature _ none => []
    | .SetAudioSignature samplesSize (some buffer) =>
      if 0 ≤ samplesSize then (List.range samplesSize.toNat).map buffer else accepted log
    | .EncodeDataToAudioBuffer _ _ _ _ => accepted log := by
  unfold accepted
  rw [List.foldl_append]
  rfl

theorem Holds.step {c : Call F} (h : Holds log s) (hc : call c s = some (r, s')) (hsized : Sized c s) :
    Holds (log ++ [(c, r)]) s' := by
  cases c with
  | EncodeDataToAudioBuffer w stringToEncode type melodyString =>
    obtain ⟨hcount, hpointer, hmax⟩ := encode_keeps hc
    constructor
    · rw [hcount, hmax, accepted_snoc]
      exact h.count
    · rw [hpointer, hmax, accepted_snoc]
      exact h.pointer
  | SetAudioSignature samplesSize samplesBuffer =>
    obtain ⟨s1, hs1, hr⟩ := Option.map_eq_some_iff.1 hc
    obtain ⟨-, rfl⟩ := Prod.mk.inj hr
    rcases setAudioSignature_cases hs1 with ⟨hnone, rfl⟩ | ⟨buffer, rfl, hpos, hmin, rfl⟩ | ⟨buffer, rfl, hneg, rfl⟩
    · have haccepted : accepted (log ++ [(.SetAudioSignature samplesSize samplesBuffer, r)]) = [] := by
        rw [accepted_snoc]
        rcases hnone with rfl | rfl
        · rfl
        · cases samplesBuffer <;> rfl
      constructor
      · rw [haccepted, List.take_nil]
        rfl
      · rw [haccepted, List.take_nil]
        exact Or.inr ⟨rfl, rfl⟩
    · have haccepted : (accepted (log ++ [(.SetAudioSignature samplesSize (some buffer), r)])).take
          (maxSignature s.encoder).toNat =
            (List.range (min samplesSize (maxSignature s.encoder)).toNat).map buffer := by
        rw [accepted_snoc]
        simp only
        rw [if_pos hpos.le, ← List.map_take, List.take_range]
        congr 2
        omega
      constructor
      · rw [haccepted, List.length_map, List.length_range]
        exact (Int.toNat_of_nonneg hmin).symm
      · rw [haccepted]
        exact Or.inl rfl
    · have h0 := hsized samplesSize buffer rfl hneg
      rw [if_neg h0]
      constructor
      · rw [accepted_snoc]
        simp only
        rw [if_neg (by omega)]
        exact h.count
      · rw [accepted_snoc]
        simp only
        rw [if_neg (by omega)]
        exact h.pointer

omit [Synthesis F D] in
theorem Holds.addSignature_eq (h : Holds log s) (st : Filling F D) :
    s.addSignature st = (withSignature s.encoder (accepted log)).addSignature st := by
  obtain ⟨hcount, hpointer⟩ := h
  unfold SignedEncoder.addSignature AudioEncoder.addSignature withSignature
  generalize (accepted log).take (maxSignature s.encoder).toNat = samples at hcount hpointer
  simp only
  cases samples with
  | nil =>
    rw [if_neg (by
      rw [hcount]
      exact fun h => absurd h.1 (lt_irrefl _))]
    rw [show (if ([] : List F).length > st.numSamples then st.numSamples else ([] : List F).length) = 0 from
      if_neg (Nat.not_lt_zero _)]
    rfl
  | cons x rest =>
    have hsome : s.mAudioSignature = some (x :: rest) := by
      rcases hpointer with hsome | ⟨-, hnil⟩
      · exact hsome
      · exact absurd hnil (by simp)
    rw [if_pos ⟨by
      rw [hcount]
      exact Int.natCast_pos.2 (Nat.succ_pos _), fun _ => by
      rw [hsome]
      rfl⟩]
    rw [hsome, hcount, Int.toNat_natCast]
    simp only [gt_iff_lt, Nat.cast_lt, Option.bind_eq_bind, Option.bind_some]
    rfl

omit [Synthesis F D] in
/-- The bookkeeping of such members is consistent. -/
theorem Holds.kept (h : Holds log s) : SignatureKept log s := by
  have hpoints : 0 < s.mnAudioSignatureSamples → ∃ samples, s.mAudioSignature = some samples ∧ 0 < samples.length ∧
      samples.length = s.mnAudioSignatureSamples := by
    intro hpos
    have hcount := h.count
    rcases h.pointer with hsome | ⟨-, hnil⟩
    · refine ⟨_, hsome, ?_, hcount.symm⟩
      omega
    · rw [hnil] at hcount
      simp only [List.length_nil] at hcount
      omega
  constructor
  · constructor
    · exact hpoints
    · rintro ⟨samples, -, hpos, hlen⟩
      omega
  · intro i hi
    obtain ⟨samples, hsome, -, hlen⟩ := hpoints (by omega)
    exact ⟨samples, hsome, by omega⟩
  · exact h.addSignature_eq

/-- A negative size takes the samples of a signature that is set and leaves their number. -/
theorem sized_of_kept {c : Call F} (hc : call c s = some (r, s')) (h : SignatureKept log s') : Sized c s := by
  rintro samplesSize buffer rfl hneg hpos
  obtain ⟨s1, hs1, hr⟩ := Option.map_eq_some_iff.1 hc
  obtain ⟨-, rfl⟩ := Prod.mk.inj hr
  rcases setAudioSignature_cases hs1 with ⟨hnone, -⟩ | ⟨buffer', -, hpos', -, -⟩ | ⟨buffer', -, -, rfl⟩
  · rcases hnone with hnone | hzero
    · exact absurd hnone (by simp)
    · omega
  · omega
  · rw [if_pos hpos] at h
    obtain ⟨samples, hsome, -⟩ := h.consistent.1 hpos
    exact absurd hsome (by simp)

end Steps

/-! ## Runs -/

section Runs

variable {memReedSolomon : ReedSolomon} {memAudio : ℕ → F} {c : EncoderClass} {samplingRate : F}
  {buffsize windowSize : ℕ} {s : SignedEncoder F} {log : List (Call F × ℕ)}

theorem run_holds (h : Run call (new memReedSolomon memAudio c samplingRate buffsize windowSize) log s)
    (hsized : ∀ l k r s', l ++ [(k, r)] <+: log →
      Run call (new memReedSolomon memAudio c samplingRate buffsize windowSize) l s' → Sized k s') : Holds log s := by
  induction h with
  | nil =>
    constructor
    · show (0 : ℤ) = ((List.take _ []).length : ℕ)
      rw [List.take_nil]
      rfl
    · exact Or.inr ⟨rfl, List.take_nil⟩
  | @call log s s' k r h hc ih =>
    have hbefore := ih fun l k r s' hl => hsized l k r s' (hl.trans (List.prefix_append _ _))
    exact hbefore.step hc (hsized log k r s (List.prefix_refl _) h)

/-- The bookkeeping is consistent after every call of a run exactly when no call of the run passes a buffer with a
negative size while a signature is set. -/
theorem signature_kept_iff (h : Run call (new memReedSolomon memAudio c samplingRate buffsize windowSize) log s) :
    (∀ l s', l <+: log → Run call (new memReedSolomon memAudio c samplingRate buffsize windowSize) l s' →
      SignatureKept l s') ↔
    ∀ l samplesSize buffer r s', l ++ [(.SetAudioSignature samplesSize (some buffer), r)] <+: log →
      Run call (new memReedSolomon memAudio c samplingRate buffsize windowSize) l s' → samplesSize < 0 →
        ¬0 < s'.mnAudioSignatureSamples := by
  constructor
  · intro hkept l samplesSize buffer r s' hl hrun hneg
    obtain ⟨rest, rfl⟩ := hl
    obtain ⟨s'', hrun', -⟩ := h.split
    obtain ⟨s1, hrun1, hc⟩ := hrun'.snoc_inv
    obtain rfl := hrun1.deterministic hrun
    exact sized_of_kept hc (hkept _ s'' (List.prefix_append _ _) hrun') samplesSize buffer rfl hneg
  · intro hsized l s' hl hrun
    refine (run_holds hrun fun l' k r s'' hl' hrun' => ?_).kept
    rintro samplesSize buffer rfl hneg
    exact hsized l' samplesSize buffer r s'' (hl'.trans hl) hrun' hneg

end Runs

end Calls

/-! ## A negative size -/

/-- The audible encoder, new. -/
noncomputable def audible : SignedEncoder ℝ := new default default .AudibleMultiTone 44100 1024 2048

theorem maxSignature_audible : maxSignature audible.encoder = 92160 := by
  have hrate : audible.encoder.mSampleRate = 44100 := rfl
  have htokens : (ofInt numTotalTokens : ℝ) = 20 := by
    rw [ofInt_eq]
    norm_num [numTotalTokens, numFrontDoorTokens, numMessageTokens, numWordTokens, numCheckTokens,
      numCorrectionTokens]
  rw [maxSignature, hrate, htokens]
  refine truncate_eq (n := 92160) ?_ ?_
  · show ((92160 : ℕ) : ℝ) ≤ 20 * (durToken * 44100)
    rw [durToken, lit_eq]
    norm_num
  · show (20 : ℝ) * (durToken * 44100) < (92160 : ℕ) + 1
    rw [durToken, lit_eq]
    norm_num

/-- Two samples of silence. -/
noncomputable def silence : ℕ → ℝ := fun _ => 0

/-- The encoder with them for its signature. -/
noncomputable def silenced : SignedEncoder ℝ :=
  { audible with mnAudioSignatureSamples := 2, mAudioSignature := some [0, 0] }

theorem setAudioSignature_silence : call (.SetAudioSignature 2 (some silence)) audible = some (0, silenced) := by
  have hmin : min (2 : ℤ) (maxSignature audible.encoder) = 2 := by
    rw [maxSignature_audible]
    rfl
  have hunset : ¬audible.mnAudioSignatureSamples > 0 := lt_irrefl (0 : ℤ)
  show (audible.SetAudioSignature 2 (some silence)).map (fun s => (0, s)) = some (0, silenced)
  rw [SetAudioSignature]
  simp only
  rw [if_neg (by decide), if_neg hunset, if_pos (by decide), hmin, if_neg (by decide)]
  rfl

theorem run_silence : Run call audible [(.SetAudioSignature 2 (some silence), 0)] silenced :=
  .call .nil setAudioSignature_silence

theorem silenced_mixes (st : Filling ℝ ℝ) :
    silenced.addSignature st = (withSignature silenced.encoder [0, 0]).addSignature st := by
  have hsized : Sized (.SetAudioSignature 2 (some silence)) audible := by
    rintro samplesSize buffer ⟨⟩ hneg
    exact absurd hneg (by decide)
  have hnew : Holds [] audible := run_holds .nil fun l k r s' hl => absurd (List.prefix_nil.1 hl) (by simp)
  exact (hnew.step setAudioSignature_silence hsized).addSignature_eq st

/-- A signature that a transmission is made with and that is taken away then; and a negative size when none is set. -/
theorem signature_kept_taken : ∃ log s, Run call audible log s ∧ log.map Prod.fst =
    [.SetAudioSignature 2 (some silence),
      .EncodeDataToAudioBuffer AudioEncoder.untouched ['h', 'e', 'l', 'l', 'o', '0', '0', '0', '0'] 0 [],
      .SetAudioSignature 2 none, .SetAudioSignature (-1) (some silence)] ∧
    ∀ l s', l <+: log → Run call audible l s' → SignatureKept l s' := by
  have hn := AudioEncoder.samplesPerDigit_44100 (e := withSignature audible.encoder [0, 0]) rfl
  have hmax := AudioEncoder.maxSamples_44100 (e := withSignature audible.encoder [0, 0]) rfl
  have hword := (AudioEncoder.encode_isSome_iff (e := withSignature audible.encoder [0, 0]) AudioEncoder.untouched
    (by omega) (by omega) ['h', 'e', 'l', 'l', 'o', '0', '0', '0', '0'] 0 []).2
      ⟨⟨by decide, by decide, AudioEncoder.word_inAlphabet⟩, fun h => absurd h (by decide)⟩
  obtain ⟨⟨n, s⟩, hencode⟩ := Option.isSome_iff_exists.1 ((encode_isSome silenced_mixes _ _ _ _).2 hword)
  have hencoded : call (.EncodeDataToAudioBuffer AudioEncoder.untouched
    ['h', 'e', 'l', 'l', 'o', '0', '0', '0', '0'] 0 []) silenced = some (n, s) := hencode
  have hrun := (run_silence.call hencoded).call (c := .SetAudioSignature 2 none) rfl
  have htaken := hrun.call (c := .SetAudioSignature (-1) (some silence)) rfl
  refine ⟨_, _, htaken, rfl, (signature_kept_iff htaken).2 ?_⟩
  intro l samplesSize buffer r s' hl hl' hneg
  -- only the last call has a negative size
  rcases snoc_prefix_snoc.1 hl with ⟨rfl, -⟩ | hbefore
  · rw [hl'.deterministic hrun]
    exact lt_irrefl (0 : ℤ)
  · have hmem := hbefore.subset (List.mem_append_right l (List.mem_singleton_self _))
    simp only [List.nil_append, List.cons_append, List.mem_cons, Prod.mk.injEq, Call.SetAudioSignature.injEq,
      Option.some.injEq, reduceCtorEq, List.not_mem_nil, false_and, and_false, or_false] at hmem
    omega

/-- A negative size after a signature: the number stays 2 and the pointer is null. -/
theorem signature_released : ∃ s, Run call audible
    [(.SetAudioSignature 2 (some silence), 0), (.SetAudioSignature (-1) (some silence), 0)] s ∧
      ¬SignatureKept [(.SetAudioSignature 2 (some silence), 0), (.SetAudioSignature (-1) (some silence), 0)] s := by
  refine ⟨{ silenced with mAudioSignature := none }, .call run_silence rfl, fun h => ?_⟩
  obtain ⟨samples, hsome, -⟩ := h.consistent.1 (by decide)
  exact absurd hsome (by simp)

end SignedEncoder

end Undertone
