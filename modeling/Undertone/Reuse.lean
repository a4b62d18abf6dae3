import Undertone.Streaming
import Undertone.ReedSolomon.Shortened

/-!
# An encoder in use

An encoder is used again and again: its codec, the audio of the last encoding and the read index stay in the object.
None of it reaches the next encoding (`encode_reused`): what a string sounds like depends on the class of the encoder,
its sampling rate and the signature that was set last, and on the globals and `rand()` at the time, not on what was
encoded or read before.
-/

namespace Undertone

open CountedLoop BoundedArray Globals Encoder

namespace ReedSolomon

/-- What is sent does not depend on what was sent before. -/
theorem Codec.sendChecked_rel (message : List ℤ) (c c' : Codec) :
    Option.Rel (fun p p' : List ℤ × Codec => p.1 = p'.1) (c.sendChecked message) (c'.sendChecked message) := by
  by_cases h : message.length ≤ kk ∧ ∀ x ∈ message, Sym x
  · rw [Codec.sendChecked_eq h.1 h.2, Codec.sendChecked_eq h.1 h.2]
    have hdata : ∀ i < kk, (SetMessage message c'.1).data i = (SetMessage message c.1).data i := fun i hi =>
      (setMessage_data message c'.1 hi).trans (setMessage_data message c.1 hi).symm
    have hsym : ∀ i < kk, Sym ((SetMessage message c.1).data i) := fun i hi => by
      rw [setMessage_data message c.1 hi]
      exact getD_sym h.2 i
    refine .some (congrArg₂ (· ++ ·) ?_ ?_)
    · refine List.map_congr_left fun i hi => (hdata i ?_).symm
      have : i < message.length := List.mem_range.1 hi
      omega
    · refine List.map_congr_left fun k hk => (encode_determined (setMessage_keeps message c.1 c.2)
        (setMessage_keeps message c'.1 c'.2) hsym hdata (List.mem_range.1 hk)).symm
  · rw [Codec.sendChecked_none h, Codec.sendChecked_none h]
    exact .none

end ReedSolomon

namespace AudioEncoder

variable {F D : Type} [Doubles D] [Floats F D]

/-! ## Equal up to the end of the array -/

/-- Two arrays that agree on their first `n` cells. -/
def SameBelow (n : ℕ) (a a' : ℕ → F) : Prop := ∀ k < n, a k = a' k

section Arrays

variable {n : ℕ} {a a' : ℕ → F}

omit [Doubles D] [Floats F D] in
theorem SameBelow.put (h : SameBelow n a a') (i : ℕ) (x : F) :
    Option.Rel (SameBelow n) (put n a i x) (put n a' i x) := by
  by_cases hi : i < n
  · rw [put_cast hi, put_cast hi]
    refine .some fun k hk => ?_
    by_cases hki : k = i
    · rw [hki, Function.update_self, Function.update_self]
    · rw [Function.update_of_ne hki, Function.update_of_ne hki]
      exact h k hk
  · have hout : ∀ a : ℕ → F, BoundedArray.put n a i x = none := fun a => if_neg fun hin => hi (Int.ofNat_lt.1 hin.2)
    rw [hout, hout]
    exact .none

omit [Doubles D] [Floats F D] in
theorem SameBelow.get (h : SameBelow n a a') (i : ℕ) : get n a i = get n a' i := by
  unfold BoundedArray.get
  split
  · rename_i hin
    exact congrArg some (h i (Int.ofNat_lt.1 hin.2))
  · rfl

end Arrays

/-! ## The two fillings of a buffer -/

/-- Two states of the loop over the symbols with the same audio. -/
structure SameFilling (n : ℕ) (st st' : Filling F D) : Prop where
  phase1 : st.phase1 = st'.phase1
  phase2 : st.phase2 = st'.phase2
  audio : SameBelow n st.audio st'.audio
  numSamples : st.numSamples = st'.numSamples

section Fillings

variable [Synthesis F D] {e : AudioEncoder F} {st st' : Filling F D} {audio audio' : ℕ → F}

theorem writeDigit_rel (g : Globals F) (digit : ℤ) (i : ℕ) (h : SameFilling e.mNumMaxSamplesEncodedString st st') :
    Option.Rel (SameFilling e.mNumMaxSamplesEncodedString) (writeDigit g e digit i st)
      (writeDigit g e digit i st') := by
  unfold writeDigit
  refine rel_bind (R := fun s s' : D × D × (ℕ → F) => s.1 = s'.1 ∧ s.2.1 = s'.2.1 ∧
    SameBelow e.mNumMaxSamplesEncodedString s.2.2 s'.2.2) ?_ ?_
  · refine forUpM_rel _ ⟨h.phase1, h.phase2, h.audio⟩ ?_
    rintro t ⟨p1, p2, a⟩ ⟨p1', p2', a'⟩ - - ⟨h1, h2, ha⟩
    obtain rfl : p1 = p1' := h1
    obtain rfl : p2 = p2' := h2
    exact rel_bind (ha.put _ _) fun b b' hb => .some ⟨rfl, rfl, hb⟩
  · rintro ⟨p1, p2, a⟩ ⟨p1', p2', a'⟩ ⟨h1, h2, ha⟩
    exact .some ⟨h1, h2, ha, congrArg (· + e.samplesPerDigit) h.numSamples⟩

theorem writeDigits_rel (g : Globals F) (digits : List ℤ)
    (h : SameBelow e.mNumMaxSamplesEncodedString audio audio') :
    Option.Rel (SameFilling e.mNumMaxSamplesEncodedString) (writeDigits g e digits audio)
      (writeDigits g e digits audio') := by
  refine forUpM_rel _ ⟨rfl, rfl, h, rfl⟩ fun i st st' _ _ hst => ?_
  refine rel_bind (R := Eq) ?_ ?_
  · cases digits[i]? with
    | none => exact .none
    | some digit => exact .some rfl
  · rintro digit _ rfl
    exact writeDigit_rel g digit i hst

omit [Synthesis F D] in
theorem mixDigit_rel (mix : ℕ → F → F) (i : ℕ) (h : SameBelow e.mNumMaxSamplesEncodedString audio audio') :
    Option.Rel (SameBelow e.mNumMaxSamplesEncodedString) (mixDigit e mix i audio) (mixDigit e mix i audio') := by
  refine forUpM_rel _ h fun t a a' _ _ ha => ?_
  rw [ha.get]
  cases get e.mNumMaxSamplesEncodedString a' (t + i * e.samplesPerDigit : ℕ) with
  | none => exact .none
  | some x => exact ha.put _ _

theorem addSounds_rel (w : Surroundings F) (type : ℤ) (melodyString : List Char) (digits : List ℤ)
    (h : SameFilling e.mNumMaxSamplesEncodedString st st') :
    Option.Rel (SameFilling e.mNumMaxSamplesEncodedString) (addSounds w type melodyString digits e st)
      (addSounds w type melodyString digits e st') := by
  unfold addSounds
  split
  · refine rel_bind (forUpM_rel _ h.audio fun i a a' _ _ ha => mixDigit_rel _ i ha) fun a a' ha => ?_
    exact .some ⟨h.phase1, h.phase2, ha, h.numSamples⟩
  · split
    · refine rel_bind (forUpM_rel (SameBelow e.mNumMaxSamplesEncodedString) h.audio fun i a a' _ _ ha => ?_)
        fun a a' ha => ?_
      · cases (melodyString.map getIdxFromChar)[i]? with
        | none => exact .none
        | some digit => exact mixDigit_rel _ i ha
      · refine .some ⟨h.phase1, h.phase2, ha, ?_⟩
        simp only [h.numSamples]
    · exact .some h

omit [Synthesis F D] in
theorem addSignature_rel (h : SameFilling e.mNumMaxSamplesEncodedString st st') :
    Option.Rel (SameFilling e.mNumMaxSamplesEncodedString) (addSignature e st) (addSignature e st') := by
  unfold addSignature
  simp only [h.numSamples]
  refine rel_bind (forUpM_rel (SameBelow e.mNumMaxSamplesEncodedString) h.audio fun i a a' _ _ ha => ?_)
    fun a a' ha => .some ⟨h.phase1, h.phase2, ha, rfl⟩
  rw [ha.get]
  cases get e.mNumMaxSamplesEncodedString a' (i : ℕ) with
  | none => exact .none
  | some x =>
    cases e.mAudioSignature[i]? with
    | none => exact .none
    | some s => exact ha.put _ _

end Fillings

/-! ## Encodings -/

/-- The same encoder, as far as the next encoding is concerned. -/
structure SameSetup (e e' : AudioEncoder F) : Prop where
  cls : e'.cls = e.cls
  mSampleRate : e'.mSampleRate = e.mSampleRate
  mWindowSize : e'.mWindowSize = e.mWindowSize
  mAudioSignature : e'.mAudioSignature = e.mAudioSignature

section Encodings

variable [Synthesis F D] {e e' : AudioEncoder F}

omit [Synthesis F D] [Doubles D] [Floats F D] in
theorem transmit_rel (stringToEncode : List Char) (e e' : AudioEncoder F) :
    Option.Rel (fun p p' : List ℤ × ReedSolomon.Codec => p.1 = p'.1) (transmit stringToEncode e)
      (transmit stringToEncode e') := by
  unfold transmit
  simp only
  refine rel_bind (R := Eq) ?_ ?_
  · cases forUpM numFrontDoorTokens (numFrontDoorTokens + numWordTokens)
        (fun i sum => do return sum + (← (userDigits stringToEncode)[i]?)) (0 : ℤ) with
    | none => exact .none
    | some sum => exact .some rfl
  · rintro sum _ rfl
    exact ReedSolomon.Codec.sendChecked_rel _ _ _

/-- On the same setup the buffers are filled alike. -/
theorem fill_rel (h : SameSetup e e') (w : Surroundings F) (stringToEncode : List Char) (type : ℤ)
    (melodyString : List Char) :
    Option.Rel (fun r r' : ℕ × AudioEncoder F => r.1 = r'.1 ∧
        r.2.mNumSamplesEncodedString = r'.2.mNumSamplesEncodedString ∧
        SameBelow r.2.mNumMaxSamplesEncodedString r.2.mAudioBufferEncodedString r'.2.mAudioBufferEncodedString)
      (EncodeDataToAudioBuffer w stringToEncode type melodyString e)
      (EncodeDataToAudioBuffer w stringToEncode type melodyString e') := by
  obtain ⟨⟨cls, rate, window, codec⟩, B, audio, n, index, signature⟩ := e
  obtain ⟨⟨cls', rate', window', codec'⟩, B', audio', n', index', signature'⟩ := e'
  obtain ⟨hcls, hrate, hwindow, hsignature⟩ := h
  simp only at hcls hrate hwindow hsignature
  subst hcls hrate hwindow hsignature
  unfold EncodeDataToAudioBuffer
  refine rel_bind (transmit_rel stringToEncode _ _) ?_
  rintro ⟨digits, codec1⟩ ⟨digits', codec2⟩ hdigits
  obtain rfl : digits = digits' := hdigits
  refine rel_bind (writeDigits_rel w.globals digits ?_) fun st st' hst => ?_
  · intro k hk
    exact (if_pos hk).trans (if_pos hk).symm
  refine rel_bind (addSounds_rel w type melodyString digits hst) fun st st' hst => ?_
  refine rel_bind (addSignature_rel hst) fun st st' hst => ?_
  exact .some ⟨hst.numSamples, hst.numSamples, hst.audio⟩

/-- What an encoding returns and the audio it leaves. -/
def audioOf (r : Option (ℕ × AudioEncoder F)) : Option (ℕ × List F) := r.map fun (n, e) => (n, e.encoded)

theorem audioOf_eq (h : SameSetup e e') (w : Surroundings F) (stringToEncode : List Char) (type : ℤ)
    (melodyString : List Char) : audioOf (EncodeDataToAudioBuffer w stringToEncode type melodyString e) =
      audioOf (EncodeDataToAudioBuffer w stringToEncode type melodyString e') := by
  have hrel := fill_rel h w stringToEncode type melodyString
  have hfits : ∀ {n e1}, EncodeDataToAudioBuffer w stringToEncode type melodyString e = some (n, e1) →
      e1.mNumSamplesEncodedString ≤ e1.mNumMaxSamplesEncodedString := fun hp => (encode_fits hp).1
  generalize EncodeDataToAudioBuffer w stringToEncode type melodyString e = r at hrel hfits
  generalize EncodeDataToAudioBuffer w stringToEncode type melodyString e' = r' at hrel
  cases hrel with
  | none => rfl
  | @some p p' hpair =>
    obtain ⟨n, e1⟩ := p
    obtain ⟨n', e1'⟩ := p'
    obtain ⟨hn, hnum, haudio⟩ := hpair
    have hencoded : e1.encoded = e1'.encoded := by
      unfold encoded
      rw [← hnum]
      exact List.map_congr_left fun k hk => haudio k ((List.mem_range.1 hk).trans_le (hfits rfl))
    exact congrArg some (Prod.ext hn hencoded)

end Encodings

/-! ## Runs -/

/-- The samples of the signature that was set last, none before the first one. -/
def lastSignature (log : List (Call F × ℕ × List F)) : List F :=
  log.foldl (fun samples entry =>
    match entry.1 with
    | .SetAudioSignature samples' => samples'
    | _ => samples) []

section Runs

variable [Synthesis F D] {memReedSolomon memReedSolomon' : ReedSolomon} {memAudio memAudio' : ℕ → F} {c : EncoderClass}
  {samplingRate : F} {buffsize buffsize' windowSize : ℕ} {log : List (Call F × ℕ × List F)} {e e' : AudioEncoder F}

omit [Doubles D] [Floats F D] [Synthesis F D] in
theorem lastSignature_snoc (log : List (Call F × ℕ × List F)) (c : Call F) (r : ℕ × List F) :
    lastSignature (log ++ [(c, r)]) = match c with
      | .SetAudioSignature samples => samples
      | _ => lastSignature log := by
  unfold lastSignature
  rw [List.foldl_append]
  rfl

theorem SameSetup.trans {e'' : AudioEncoder F} (h : SameSetup e e') (h' : SameSetup e' e'') : SameSetup e e'' :=
  ⟨h'.cls.trans h.cls, h'.mSampleRate.trans h.mSampleRate, h'.mWindowSize.trans h.mWindowSize,
    h'.mAudioSignature.trans h.mAudioSignature⟩

theorem encode_setup {w : Surroundings F} {stringToEncode : List Char} {type : ℤ} {melodyString : List Char} {n : ℕ}
    (h : EncodeDataToAudioBuffer w stringToEncode type melodyString e = some (n, e')) : SameSetup e e' := by
  obtain ⟨-, digits, audio, st, st', st'', -, -, -, -, codec, rfl⟩ := encode_inv h
  exact ⟨rfl, rfl, rfl, rfl⟩

/-- Only `SetAudioSignature` changes the setup. -/
theorem call_setup {k : Call F} {r : ℕ × List F} (h : call k e = some (r, e')) :
    match k with
    | .SetAudioSignature samples => e' = e.SetAudioSignature samples
    | _ => SameSetup e e' := by
  cases k with
  | EncodeDataToAudioBuffer w stringToEncode type melodyString =>
    obtain ⟨⟨n, e1⟩, hencode, hdone⟩ := Option.bind_eq_some_iff.1 h
    obtain ⟨-, rfl⟩ := Prod.mk.inj (Option.some.inj hdone)
    exact encode_setup hencode
  | GetEncodedAudioBuffer =>
    obtain ⟨⟨samples, e1⟩, hread, hdone⟩ := Option.bind_eq_some_iff.1 h
    obtain ⟨-, rfl⟩ := Prod.mk.inj (Option.some.inj hdone)
    obtain ⟨samples', -, hdone'⟩ := Option.bind_eq_some_iff.1 hread
    obtain ⟨-, rfl⟩ := Prod.mk.inj (Option.some.inj hdone')
    exact ⟨rfl, rfl, rfl, rfl⟩
  | ResetEncodedAudioBuffer =>
    obtain ⟨-, rfl⟩ := Prod.mk.inj (Option.some.inj h)
    exact ⟨rfl, rfl, rfl, rfl⟩
  | SetAudioSignature samples =>
    obtain ⟨-, rfl⟩ := Prod.mk.inj (Option.some.inj h)
    rfl

omit [Synthesis F D] in
theorem setAudioSignature_setup {samples' : List F} (h : SameSetup (e.SetAudioSignature samples') e')
    (samples : List F) : SameSetup (e.SetAudioSignature samples) (e'.SetAudioSignature samples) := by
  have hrate : e'.mSampleRate = e.mSampleRate := h.mSampleRate
  refine ⟨h.cls, h.mSampleRate, h.mWindowSize, ?_⟩
  unfold SetAudioSignature
  rw [hrate]

omit [Synthesis F D] in
theorem new_members (memReedSolomon : ReedSolomon) (memAudio : ℕ → F) (c : EncoderClass) (samplingRate : F)
    (buffsize windowSize : ℕ) : (new memReedSolomon memAudio c samplingRate buffsize windowSize).cls = c ∧
      (new memReedSolomon memAudio c samplingRate buffsize windowSize).mSampleRate = samplingRate ∧
      (new memReedSolomon memAudio c samplingRate buffsize windowSize).mWindowSize = windowSize ∧
      (new memReedSolomon memAudio c samplingRate buffsize windowSize).mAudioSignature = [] := ⟨rfl, rfl, rfl, rfl⟩

omit [Synthesis F D] in
/-- What `new` leaves in the memory does not matter, nor does the size of the buffers. -/
theorem new_same : SameSetup (new memReedSolomon' memAudio' c samplingRate buffsize' windowSize)
    (new memReedSolomon memAudio c samplingRate buffsize windowSize) := by
  obtain ⟨hcls, hrate, hwindow, hsignature⟩ := new_members memReedSolomon memAudio c samplingRate buffsize windowSize
  obtain ⟨hcls', hrate', hwindow', hsignature'⟩ :=
    new_members memReedSolomon' memAudio' c samplingRate buffsize' windowSize
  exact ⟨hcls.trans hcls'.symm, hrate.trans hrate'.symm, hwindow.trans hwindow'.symm, hsignature.trans hsignature'.symm⟩

omit [Synthesis F D] in
theorem new_setup : SameSetup ((new memReedSolomon' memAudio' c samplingRate buffsize' windowSize).SetAudioSignature [])
    (new memReedSolomon memAudio c samplingRate buffsize windowSize) := by
  have hsame : SameSetup (new memReedSolomon' memAudio' c samplingRate buffsize' windowSize)
      (new memReedSolomon memAudio c samplingRate buffsize windowSize) := new_same
  have hsignature := (new_members memReedSolomon memAudio c samplingRate buffsize windowSize).2.2.2
  -- the codecs are not to be compared
  generalize new memReedSolomon memAudio c samplingRate buffsize windowSize = e at hsame hsignature
  generalize new memReedSolomon' memAudio' c samplingRate buffsize' windowSize = e' at hsame
  refine ⟨hsame.cls, hsame.mSampleRate, hsame.mWindowSize, ?_⟩
  unfold SetAudioSignature
  rw [List.take_nil, hsignature]

theorem run_setup (h : Run call (new memReedSolomon memAudio c samplingRate buffsize windowSize) log e) :
    SameSetup ((new memReedSolomon' memAudio' c samplingRate buffsize' windowSize).SetAudioSignature
      (lastSignature log)) e := by
  refine h.rule (fun log e => SameSetup ((new memReedSolomon' memAudio' c samplingRate buffsize'
    windowSize).SetAudioSignature (lastSignature log)) e) new_setup ?_
  intro log e k r e' hs hcall
  have hcases := call_setup hcall
  rw [lastSignature_snoc]
  cases k with
  | SetAudioSignature samples =>
    obtain rfl : e' = e.SetAudioSignature samples := hcases
    exact setAudioSignature_setup hs samples
  | EncodeDataToAudioBuffer => exact hs.trans hcases
  | GetEncodedAudioBuffer => exact hs.trans hcases
  | ResetEncodedAudioBuffer => exact hs.trans hcases

/-- Over every run of the calls of an encoder: whatever was encoded and read before, the next encoding has the outcome,
the result and the audio of the same encoding on a new encoder of the class, at the sampling rate and with the signature
that was set last. -/
theorem encode_reused (h : Run call (new memReedSolomon memAudio c samplingRate buffsize windowSize) log e)
    (memReedSolomon' : ReedSolomon) (memAudio' : ℕ → F) (buffsize' : ℕ) (w : Surroundings F)
    (stringToEncode : List Char) (type : ℤ) (melodyString : List Char) :
    audioOf (e.EncodeDataToAudioBuffer w stringToEncode type melodyString) =
      audioOf (((new memReedSolomon' memAudio' c samplingRate buffsize' windowSize).SetAudioSignature
        (lastSignature log)).EncodeDataToAudioBuffer w stringToEncode type melodyString) :=
  (audioOf_eq (run_setup h) w stringToEncode type melodyString).symm

end Runs

/-- A word after a word and a signature. -/
theorem encode_reused_word : ∃ log e, Run call (audible 1024) log e ∧ log.map Prod.fst =
    [.EncodeDataToAudioBuffer untouched ['h', 'e', 'l', 'l', 'o', '0', '0', '0', '0'] 0 [], .SetAudioSignature [1]] ∧
      audioOf (e.EncodeDataToAudioBuffer untouched ['w', 'o', 'r', 'l', 'd', '0', '0', '0', '0'] 0 []) =
        audioOf (((audible 512).SetAudioSignature [1]).EncodeDataToAudioBuffer untouched
          ['w', 'o', 'r', 'l', 'd', '0', '0', '0', '0'] 0 []) := by
  have hn := samplesPerDigit_44100 (e := audible 1024) rfl
  have hmax := maxSamples_44100 (e := audible 1024) rfl
  obtain ⟨⟨n, e1⟩, hencode⟩ := Option.isSome_iff_exists.1 ((encode_isSome_iff (e := audible 1024) untouched (by omega)
    (by omega) ['h', 'e', 'l', 'l', 'o', '0', '0', '0', '0'] 0 []).2
    ⟨⟨by decide, by decide, word_inAlphabet⟩, fun h => absurd h (by decide)⟩)
  have hcall1 : call (.EncodeDataToAudioBuffer untouched ['h', 'e', 'l', 'l', 'o', '0', '0', '0', '0'] 0 [])
      (audible 1024) = some ((n, []), e1) := congrArg (Option.bind · _) hencode
  have hrun := (Run.call .nil hcall1).call (c := .SetAudioSignature [1]) rfl
  exact ⟨_, _, hrun, rfl, encode_reused hrun default default 512 untouched _ 0 []⟩

end AudioEncoder

end Undertone
