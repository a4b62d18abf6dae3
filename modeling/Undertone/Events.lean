import Mathlib.Data.List.DropRight
import Undertone.Correction

/-!
# Events

What the values returned by `DecodeAudioBuffer` say about the decoder. A frame, and with it a whole call, has one of
four outcomes for the bookkeeping (`Outcome`); from these follow, over every run of calls, the grammar of the events
(`run_grammatical`), what `mDecodedValues` holds when a message ends (`values_split`), and what a poll finds when none
has (`poll_unguarded`).
-/

namespace Undertone

open CountedLoop Globals

namespace Decoder

variable {F κ : Type}

/-! ## Logs -/

/-- The value returned by a call of `DecodeAudioBuffer`, unless it is `-1`. -/
def Answer.event? : Answer → Option ℤ
  | .event r => if r = -1 then none else some r
  | .data _ _ => none

/-- The values other than `-1` that the calls of `DecodeAudioBuffer` returned. -/
def events (log : List (κ × Answer)) : List ℤ := log.filterMap fun e => e.2.event?

@[simp] theorem events_nil : events ([] : List (κ × Answer)) = [] := rfl

theorem events_append (log log' : List (κ × Answer)) : events (log ++ log') = events log ++ events log' := by
  simp [events]

theorem events_map {κ' : Type} (f : κ → κ') (log : List (κ × Answer)) :
    events (log.map fun e => (f e.1, e.2)) = events log := by
  rw [events, events, List.filterMap_map]
  rfl

theorem events_event {r : Option ℤ} (hr : r ≠ some (-1)) (log : List (κ × Answer)) (c : κ) :
    events (log ++ [(c, .event (r.getD (-1)))]) = events log ++ r.toList := by
  rw [events_append]
  cases r with
  | none => rfl
  | some r =>
    have hne : r ≠ -1 := fun h => hr (congrArg some h)
    simp [events, Answer.event?, hne]

theorem events_data (log : List (κ × Answer)) (c : κ) (ret : ℤ) (s : List Char) :
    events (log ++ [(c, .data ret s)]) = events log := by
  simp [events, Answer.event?]

/-- The calls after the last poll. -/
def sincePoll (log : List (Call F × Answer)) : List (Call F × Answer) :=
  log.rtakeWhile fun e => match e.1 with
    | .DecodeAudioBuffer .. => true
    | .GetDecodedData => false

/-- The calls after the start tokens were found the last time. -/
def sinceStart (log : List (Call F × Answer)) : List (Call F × Answer) :=
  log.rtakeWhile fun e => match e.2 with
    | .event r => r ≠ -2
    | .data _ _ => true

/-- A message ended, and there was no poll since. -/
def Pending (log : List (Call F × Answer)) : Prop := ∃ e ∈ sincePoll log, e.2 = .event (-3)

/-- Every poll comes after the end of a message and before the next start tokens. -/
def PolledBetween (log : List (Call F × Answer)) : Prop :=
  ∀ l a l', log = l ++ (.GetDecodedData, a) :: l' → (events l).getLast? = some (-3)

theorem PolledBetween.before {log : List (Call F × Answer)} {e : Call F × Answer} (h : PolledBetween (log ++ [e])) :
    PolledBetween log :=
  fun l a l' hl => h l a (l' ++ [e]) (by rw [hl]; simp)

theorem sincePoll_event {log : List (Call F × Answer)} {c : Call F} (hc : c ≠ .GetDecodedData) (a : Answer) :
    sincePoll (log ++ [(c, a)]) = sincePoll log ++ [(c, a)] := by
  cases c with
  | DecodeAudioBuffer g b n => exact List.rtakeWhile_concat_pos _ _ _ rfl
  | GetDecodedData => exact absurd rfl hc

theorem sincePoll_poll (log : List (Call F × Answer)) (a : Answer) : sincePoll (log ++ [(.GetDecodedData, a)]) = [] :=
  List.rtakeWhile_concat_neg _ _ _ (by simp)

theorem sinceStart_event {log : List (Call F × Answer)} {c : Call F} {r : ℤ} (hr : r ≠ -2) :
    sinceStart (log ++ [(c, .event r)]) = sinceStart log ++ [(c, .event r)] :=
  List.rtakeWhile_concat_pos _ _ _ (by simpa using hr)

theorem sinceStart_start (log : List (Call F × Answer)) (c : Call F) : sinceStart (log ++ [(c, .event (-2))]) = [] :=
  List.rtakeWhile_concat_neg _ _ _ (by simp)

/-- A log without polls. -/
theorem unpolled {log : List (Call F × Answer)} (h : ∀ e ∈ log, e.1 ≠ .GetDecodedData) :
    PolledBetween log ∧ (Pending log ↔ -3 ∈ events log) := by
  have hall : sincePoll log = log := List.rtakeWhile_eq_self_iff.2 fun e he => by
    have := h e he
    rcases e with ⟨c, a⟩
    cases c with
    | DecodeAudioBuffer g b n => rfl
    | GetDecodedData => exact absurd rfl this
  constructor
  · rintro l a l' rfl
    exact absurd rfl (h (.GetDecodedData, a) (by simp))
  · rw [Pending, hall, events, List.mem_filterMap]
    refine exists_congr fun e => and_congr_right fun _ => ?_
    rcases e with ⟨c, r | ⟨r, s⟩⟩
    · by_cases hr : r = -1
      · simp [Answer.event?, hr]
      · simp [Answer.event?, hr]
    · simp [Answer.event?]

theorem pending_event {log : List (Call F × Answer)} {c : Call F} (hc : c ≠ .GetDecodedData) {r : ℤ} :
    Pending (log ++ [(c, .event r)]) ↔ Pending log ∨ r = -3 := by
  unfold Pending
  rw [sincePoll_event hc]
  simp [or_and_right, exists_or]

theorem not_pending_poll (log : List (Call F × Answer)) (a : Answer) : ¬ Pending (log ++ [(.GetDecodedData, a)]) := by
  rintro ⟨e, he, -⟩
  rw [sincePoll_poll] at he
  exact absurd he (by simp)

end Decoder

variable {F D : Type} [Doubles D] [Floats F D] [CFFTOoura F]

/-! ## Outcomes -/

/-- The mode after the start tokens are found, from the mode before. -/
def NextMode (c : DecoderClass) (m m' : ℤ) : Prop := if c = .AllMultiTone then 0 ≤ m' ∧ m' ≤ 2 else m' = m

/-- What a frame, or a call, does to `mDecoding`, `mDecodingMode` and `mDecodedValues`, by the value returned. -/
inductive Outcome (c : DecoderClass) (C : Core F) : Option ℤ → Core F → Prop
  | quiet {C' : Core F} (hd : C'.mDecoding = C.mDecoding) (hm : C'.mDecodingMode = C.mDecodingMode)
      (hv : C'.mDecodedValues = C.mDecodedValues) : Outcome c C none C'
  | start {C' : Core F} (h0 : C.mDecoding = 0) (hd : C'.mDecoding = 1)
      (hm : NextMode c C.mDecodingMode C'.mDecodingMode)
      (hv : C'.mDecodedValues = C.mDecodedValues ++ [Analysis.idxFrontDoorToken1, Analysis.idxFrontDoorToken2]) :
      Outcome c C (some (-2)) C'
  | token {C' : Core F} {r : ℤ} (h1 : 1 ≤ C.mDecoding) (h18 : C.mDecoding ≤ 18) (hr : 0 ≤ r ∧ r ≤ 31)
      (hd : C'.mDecoding = C.mDecoding + 1) (hm : C'.mDecodingMode = C.mDecodingMode)
      (hv : C'.mDecodedValues = C.mDecodedValues ++ [r]) : Outcome c C (some r) C'
  | finished {C' : Core F} (h : 18 < C.mDecoding) (hd : C'.mDecoding = 0) (hm : C'.mDecodingMode = C.mDecodingMode)
      (hv : C'.mDecodedValues = C.mDecodedValues) : Outcome c C (some (-3)) C'

omit [Doubles D] [Floats F D] [CFFTOoura F] in
theorem Outcome.after_quiet {c : DecoderClass} {C C' C'' : Core F} {r : Option ℤ} (h : Outcome c C none C')
    (h' : Outcome c C' r C'') : Outcome c C r C'' := by
  obtain ⟨hd, hm, hv⟩ := h
  cases h' with
  | quiet hd' hm' hv' => exact .quiet (hd'.trans hd) (hm'.trans hm) (hv'.trans hv)
  | start h0 hd' hm' hv' => exact .start (hd ▸ h0) hd' (hm ▸ hm') (hv ▸ hv')
  | token h1 h18 hr hd' hm' hv' => exact .token (hd ▸ h1) (hd ▸ h18) hr (hd ▸ hd') (hm'.trans hm) (hv ▸ hv')
  | finished h hd' hm' hv' => exact .finished (hd ▸ h) hd' (hm'.trans hm) (hv'.trans hv)

omit [Doubles D] [Floats F D] [CFFTOoura F] in
theorem Outcome.ne_neg_one {c : DecoderClass} {C C' : Core F} {r : Option ℤ} (h : Outcome c C r C') :
    r ≠ some (-1) := by
  cases h with
  | quiet => simp
  | start => simp
  | token _ _ hr =>
    intro h
    have := Option.some.inj h
    omega
  | finished => simp

omit [Doubles D] [Floats F D] [CFFTOoura F] in
theorem Outcome.mode {c : DecoderClass} {C C' : Core F} {r : Option ℤ} (h : Outcome c C r C') (h2 : r ≠ some (-2)) :
    C'.mDecodingMode = C.mDecodingMode := by
  cases h with
  | quiet _ hm => exact hm
  | start => exact absurd rfl h2
  | token _ _ _ _ hm => exact hm
  | finished _ _ hm => exact hm

omit [Doubles D] [Floats F D] [CFFTOoura F] in
theorem Outcome.token_inv {c : DecoderClass} {C C' : Core F} {r : ℤ} (h : Outcome c C (some r) C') (h0 : 0 ≤ r) :
    1 ≤ C.mDecoding ∧ C.mDecoding ≤ 18 := by
  cases h with
  | start => omega
  | token h1 h18 => exact ⟨h1, h18⟩
  | finished => omega

omit [Doubles D] [Floats F D] [CFFTOoura F] in
theorem Outcome.end_inv {c : DecoderClass} {C C' : Core F} (h : Outcome c C (some (-3)) C') : 18 < C.mDecoding := by
  cases h with
  | token _ _ hr => omega
  | finished h => exact h

namespace Analysis

omit [CFFTOoura F] in
theorem searchModes_range : ∀ (lanes t : ℕ) (A : Analysis F),
    (searchModes lanes t A).1 = 0 ∨ (t : ℤ) + 1 ≤ (searchModes lanes t A).1 ∧ (searchModes lanes t A).1 ≤ t + lanes
  | 0, _, _ => Or.inl rfl
  | lanes + 1, t, A => by
    rcases hs : searchMode t A with ⟨found, A'⟩
    cases found with
    | true =>
      have h : (searchModes (lanes + 1) t A).1 = 1 + t := by simp [searchModes, hs]
      rw [h]
      omega
    | false =>
      have h : searchModes (lanes + 1) t A = searchModes lanes (t + 1) A' := by simp [searchModes, hs]
      rw [h]
      have := searchModes_range lanes (t + 1) A'
      omega

theorem idxToken_lt (mode idx1 idx2 : ℤ) : idxToken mode idx1 idx2 < 32 := by
  unfold idxToken
  split
  · exact getIdxTokenFromIdxsTones_lt idx1 idx2
  · split
    · exact getIdxTokenFromIdxsTones_lt idx1 idx2
    · split
      · exact getIdxTokenFromIdxsTones_lt idx1 idx2
      · split
        · exact getIdxTokenFromIdxsTones_lt idx1 idx2
        · decide

theorem AnalyzeToken_lt (g : Globals F) (mode mDecoding : ℤ) (t : ℕ) (frame : ℕ → F) (A : Analysis F) :
    (AnalyzeToken g mode mDecoding t frame A).1 < 32 := by
  unfold AnalyzeToken
  simp only
  split
  · exact idxToken_lt _ _ _
  · exact (by decide : (-1 : ℤ) < 32)

end Analysis

theorem SingleTone.AnalyzeToken_lt (c : SingleTone F) (mDecoding : ℤ) (values : List ℤ) (frame : ℕ → F)
    (A : Analysis F) : (SingleTone.AnalyzeToken c mDecoding values frame A).1 < 32 := by
  unfold SingleTone.AnalyzeToken
  simp only
  split
  · exact Int.ofNat_lt.2 (maxValueIdx_lt _ _ (by decide))
  · exact (by decide : (-1 : ℤ) < 32)

namespace Core

theorem AnalyzeToken_lt (c : DecoderClass) (g : Globals F) (frame : ℕ → F) (C : Core F) :
    (C.AnalyzeToken c g frame).1 < 32 := by
  cases c with
  | Audible => exact SingleTone.AnalyzeToken_lt ..
  | NonAudible => exact SingleTone.AnalyzeToken_lt ..
  | AudibleMultiTone => exact Analysis.AnalyzeToken_lt ..
  | NonAudibleMultiTone => exact Analysis.AnalyzeToken_lt ..
  | CompressionMultiTone => exact Analysis.AnalyzeToken_lt ..
  | CustomMultiTone => exact Analysis.AnalyzeToken_lt ..
  | AllMultiTone => exact Analysis.AnalyzeToken_lt ..

theorem begin_mode {c : DecoderClass} {C : Core F} {frame : ℕ → F} {ret : ℤ} {A : Analysis F}
    (h : C.AnalyzeStartTokens c frame = (ret, A)) (hs : isStart c ret = true) :
    NextMode c C.mDecodingMode (C.begin c ret A).mDecodingMode := by
  unfold NextMode begin
  split
  · rename_i hc
    subst hc
    have hrange := Analysis.searchModes_range 3 0 (C.analysis.storeSpectrum frame)
    rw [show Analysis.searchModes 3 0 (C.analysis.storeSpectrum frame) = (ret, A) from h] at hrange
    have : 1 ≤ ret := of_decide_eq_true hs
    simp only at hrange ⊢
    omega
  · rfl

/-- The outcome of a frame. -/
theorem step_outcome (c : DecoderClass) (g : Globals F) (frame : ℕ → F) (C : Core F) :
    Outcome c C (step c g frame C).1 (step c g frame C).2 := by
  unfold step
  split
  · rename_i h0
    rcases h : C.AnalyzeStartTokens c frame with ⟨ret, A⟩
    simp only
    split
    · rename_i hs
      exact .start h0 rfl (begin_mode h hs) rfl
    · exact .quiet rfl rfl rfl
  · split
    · rename_i h0 h18
      have hlt := AnalyzeToken_lt c g frame C
      rcases h : C.AnalyzeToken c g frame with ⟨ret, A⟩
      rw [h] at hlt
      simp only at hlt ⊢
      split
      · rename_i hret
        exact .token (by omega) h18.2 ⟨hret, by omega⟩ rfl rfl rfl
      · exact .quiet rfl rfl rfl
    · split
      · rename_i h19
        exact .finished h19 rfl rfl rfl
      · exact .quiet rfl rfl rfl

end Core

namespace Decoder

/-- The outcome of the frames of a call. -/
theorem feed_outcome (c : DecoderClass) (g : Globals F) (audioBuffer : ℕ → F) (size : ℕ) (B : FrameBuffer F)
    (C : Core F) : Outcome c C (FrameBuffer.feed (Core.step c g) audioBuffer size (B, C)).1
      (FrameBuffer.feed (Core.step c g) audioBuffer size (B, C)).2.2 :=
  FrameBuffer.feed_rule (Core.step c g) (Outcome c C) (fun f _ h => h.after_quiet (Core.step_outcome c g f _))
    audioBuffer size B C (.quiet rfl rfl rfl)

/-- The outcome of a call. -/
theorem decodeAudioBuffer_outcome (g : Globals F) (audioBuffer : ℕ → F) (size : ℕ) (d : Decoder F) :
    ∃ r : Option ℤ, (d.DecodeAudioBuffer g audioBuffer size).1 = r.getD (-1) ∧
      Outcome d.cls d.core r (d.DecodeAudioBuffer g audioBuffer size).2.core :=
  ⟨_, rfl, feed_outcome d.cls g audioBuffer size d.frames d.core⟩

/-- What a call that has an answer does to everything but the ring of samples and the codec. -/
theorem call_cases {c : Call F} {d d' : Decoder F} {a : Answer} (h : d.call c = some (a, d')) :
    d'.cls = d.cls ∧
      ((∃ r : Option ℤ, a = .event (r.getD (-1)) ∧ Outcome d.cls d.core r d'.core ∧ c ≠ .GetDecodedData) ∨
        (c = .GetDecodedData ∧ (∃ ret s, a = .data ret s) ∧ d'.core = { d.core with mDecodedValues := [] })) := by
  cases c with
  | DecodeAudioBuffer g audioBuffer size =>
    obtain ⟨r, hr, ho⟩ := decodeAudioBuffer_outcome g audioBuffer size d
    obtain ⟨rfl, rfl⟩ := Prod.mk.inj (Option.some.inj h)
    exact ⟨rfl, Or.inl ⟨r, congrArg Answer.event hr, ho, by simp⟩⟩
  | GetDecodedData =>
    obtain ⟨⟨ret, s, e⟩, he, hx⟩ := Option.map_eq_some_iff.1 h
    obtain ⟨rfl, rfl⟩ := Prod.mk.inj hx
    obtain ⟨-, -, hcls, -, hcore⟩ := getDecodedData_inv he
    exact ⟨hcls, Or.inr ⟨rfl, ⟨ret, s, rfl⟩, hcore⟩⟩

/-! ## Polls at any time -/

/-- The calls of the program, and a poll that reads `mDecodedValues` past its end. What such a poll does is not defined;
here it may return anything and leave anything where `GetDecodedData` writes, and touches nothing else. -/
inductive AnyCall (F : Type)
  | defined (c : Call F)
  | beyond (ret : ℤ) (stringDecoded : List Char) (mDecodedValues : List ℤ) (mReedSolomon : ReedSolomon.Codec)
    (mDecodedValuesOrig : ℕ → ℤ) (mConfidenceCorrection : F)

def anyCall (c : AnyCall F) (d : Decoder F) : Option (Answer × Decoder F) :=
  match c with
  | .defined c => d.call c
  | .beyond ret stringDecoded mDecodedValues mReedSolomon mDecodedValuesOrig mConfidenceCorrection =>
    if d.GetDecodedData.isNone then
      some (.data ret stringDecoded, { d with
        core := { d.core with mDecodedValues := mDecodedValues }
        mReedSolomon := mReedSolomon
        mDecodedValuesOrig := mDecodedValuesOrig
        mConfidenceCorrection := mConfidenceCorrection })
    else none

/-- A poll leaves the class, the counter and the mode alone. -/
theorem anyCall_cases {c : AnyCall F} {d d' : Decoder F} {a : Answer} (h : d.anyCall c = some (a, d')) :
    d'.cls = d.cls ∧
      ((∃ r : Option ℤ, a = .event (r.getD (-1)) ∧ Outcome d.cls d.core r d'.core) ∨
        ((∃ ret s, a = .data ret s) ∧ d'.core.mDecoding = d.core.mDecoding ∧
          d'.core.mDecodingMode = d.core.mDecodingMode)) := by
  cases c with
  | defined c =>
    obtain ⟨hcls, ⟨r, hr, ho, -⟩ | ⟨-, ha, hcore⟩⟩ := call_cases h
    · exact ⟨hcls, Or.inl ⟨r, hr, ho⟩⟩
    · exact ⟨hcls, Or.inr ⟨ha, by rw [hcore], by rw [hcore]⟩⟩
  | beyond ret s =>
    simp only [anyCall] at h
    split at h
    · obtain ⟨rfl, rfl⟩ := Prod.mk.inj (Option.some.inj h)
      exact ⟨rfl, Or.inr ⟨⟨ret, s, rfl⟩, rfl, rfl⟩⟩
    · cases h

/-! ## The grammar -/

/-- The events of a message: the start tokens, its tokens, its end. -/
def IsMessage (b : List ℤ) : Prop :=
  ∃ tokens : List ℤ, tokens.length = 18 ∧ (∀ x ∈ tokens, 0 ≤ x ∧ x ≤ 31) ∧ b = -2 :: tokens ++ [-3]

/-- The events of a message that has begun, when `mDecoding` is `k`. -/
def IsPartial (k : ℤ) (part : List ℤ) : Prop :=
  k = 0 ∧ part = [] ∨
    ∃ tokens : List ℤ, k = tokens.length + 1 ∧ tokens.length ≤ 18 ∧ (∀ x ∈ tokens, 0 ≤ x ∧ x ≤ 31) ∧
      part = -2 :: tokens

/-- Complete messages, and what there is of the next one. -/
def Grammatical (k : ℤ) (es : List ℤ) : Prop :=
  ∃ (blocks : List (List ℤ)) (part : List ℤ), (∀ b ∈ blocks, IsMessage b) ∧ IsPartial k part ∧
    es = blocks.flatten ++ part

theorem Grammatical.nil : Grammatical 0 [] := ⟨[], [], by simp, Or.inl ⟨rfl, rfl⟩, rfl⟩

omit [Doubles D] [Floats F D] [CFFTOoura F] in
theorem Grammatical.step {c : DecoderClass} {C C' : Core F} {r : Option ℤ} {es : List ℤ} (ho : Outcome c C r C')
    (h : Grammatical C.mDecoding es) : Grammatical C'.mDecoding (es ++ r.toList) := by
  obtain ⟨blocks, part, hb, hp, rfl⟩ := h
  cases ho with
  | quiet hd => exact ⟨blocks, part, hb, hd ▸ hp, List.append_nil _⟩
  | start h0 hd =>
    obtain ⟨-, rfl⟩ : C.mDecoding = 0 ∧ part = [] := by
      rcases hp with hp | ⟨tokens, hk, -⟩
      · exact hp
      · omega
    exact ⟨blocks, [-2], hb, Or.inr ⟨[], hd, by simp, by simp, rfl⟩, by simp⟩
  | @token _ r h1 h18 hr hd =>
    obtain ⟨tokens, hk, hlen, ht, rfl⟩ : ∃ tokens : List ℤ, C.mDecoding = tokens.length + 1 ∧ tokens.length ≤ 18 ∧
        (∀ x ∈ tokens, 0 ≤ x ∧ x ≤ 31) ∧ part = -2 :: tokens := by
      rcases hp with ⟨h0, -⟩ | hp
      · omega
      · exact hp
    refine ⟨blocks, -2 :: (tokens ++ [r]), hb, Or.inr ⟨tokens ++ [r], ?_, ?_, ?_, rfl⟩, by simp⟩
    · rw [List.length_append, List.length_singleton]
      push_cast
      omega
    · rw [List.length_append, List.length_singleton]
      omega
    · intro x hx
      rcases List.mem_append.1 hx with hx | hx
      · exact ht x hx
      · rwa [List.mem_singleton.1 hx]
  | finished h19 hd =>
    obtain ⟨tokens, hk, hlen, ht, rfl⟩ : ∃ tokens : List ℤ, C.mDecoding = tokens.length + 1 ∧ tokens.length ≤ 18 ∧
        (∀ x ∈ tokens, 0 ≤ x ∧ x ≤ 31) ∧ part = -2 :: tokens := by
      rcases hp with ⟨h0, -⟩ | hp
      · omega
      · exact hp
    refine ⟨blocks ++ [-2 :: tokens ++ [-3]], [], fun b hbm => ?_, Or.inl ⟨hd, rfl⟩, by simp⟩
    rcases List.mem_append.1 hbm with hbm | hbm
    · exact hb b hbm
    · exact ⟨tokens, by omega, ht, List.mem_singleton.1 hbm⟩

theorem Grammatical.range {k : ℤ} {es : List ℤ} (h : Grammatical k es) : 0 ≤ k ∧ k ≤ 19 := by
  obtain ⟨_, _, -, ⟨rfl, -⟩ | ⟨tokens, hk, hlen, -⟩, -⟩ := h <;> omega

/-- The message that has begun can still be completed. -/
theorem Grammatical.completes {k : ℤ} {es : List ℤ} (h : Grammatical k es) :
    ∃ blocks : List (List ℤ), (∀ b ∈ blocks, IsMessage b) ∧ es <+: blocks.flatten := by
  obtain ⟨blocks, part, hb, ⟨-, rfl⟩ | ⟨tokens, -, hlen, ht, rfl⟩, rfl⟩ := h
  · exact ⟨blocks, hb, by simp⟩
  · refine ⟨blocks ++ [-2 :: (tokens ++ List.replicate (18 - tokens.length) 0) ++ [-3]], fun b hbm => ?_, ?_⟩
    · rcases List.mem_append.1 hbm with hbm | hbm
      · exact hb b hbm
      · refine ⟨_, ?_, fun x hx => ?_, List.mem_singleton.1 hbm⟩
        · rw [List.length_append, List.length_replicate]
          omega
        · rcases List.mem_append.1 hx with hx | hx
          · exact ht x hx
          · rw [(List.mem_replicate.1 hx).2]
            decide
    · exact ⟨List.replicate (18 - tokens.length) 0 ++ [-3], by simp⟩

/-- No message has begun after the end of one. -/
theorem Grammatical.at_end {k : ℤ} {es : List ℤ} (h : Grammatical k es) (hl : es.getLast? = some (-3)) : k = 0 := by
  obtain ⟨blocks, part, hb, ⟨h0, -⟩ | ⟨tokens, -, hlen, ht, rfl⟩, rfl⟩ := h
  · exact h0
  · rw [List.getLast?_append_of_ne_nil _ (List.cons_ne_nil _ _)] at hl
    have hmem := List.mem_of_getLast? hl
    rcases List.mem_cons.1 hmem with h3 | h3
    · exact absurd h3 (by decide)
    · exact absurd (ht _ h3).1 (by decide)

section Runs

variable {mem : Decoder F} {memRS : ReedSolomon} {c : DecoderClass} {g : Globals F} {samplingRate : F} {W : ℕ}

/-- The events of a run fit the counter, whatever the polls. -/
theorem any_grammatical {log : List (AnyCall F × Answer)} {d : Decoder F}
    (h : Run anyCall (Decoder.new mem memRS c g samplingRate W) log d) :
    d.cls = c ∧ Grammatical d.core.mDecoding (events log) := by
  refine h.rule (fun log d => d.cls = c ∧ Grammatical d.core.mDecoding (events log)) ⟨rfl, .nil⟩ ?_
  rintro log d call a d' ⟨hc, hg⟩ hcall
  obtain ⟨hcls, ⟨r, rfl, ho⟩ | ⟨⟨ret, s, rfl⟩, hd, -⟩⟩ := anyCall_cases hcall
  · refine ⟨hcls.trans hc, ?_⟩
    rw [events_event ho.ne_neg_one]
    exact hg.step ho
  · refine ⟨hcls.trans hc, ?_⟩
    rw [events_data, hd]
    exact hg

theorem run_any {log : List (Call F × Answer)} {d d' : Decoder F} (h : Run Decoder.call d log d') :
    Run anyCall d (log.map fun e => (.defined e.1, e.2)) d' :=
  h.relabel AnyCall.defined fun _ _ _ _ hcall => hcall

theorem run_grammatical {log : List (Call F × Answer)} {d : Decoder F}
    (h : Run Decoder.call (Decoder.new mem memRS c g samplingRate W) log d) :
    d.cls = c ∧ Grammatical d.core.mDecoding (events log) := by
  have hany := any_grammatical (run_any h)
  rwa [events_map] at hany

/-! ## What `mDecodedValues` holds -/

/-- The vector in terms of the log: `older` is what unpolled messages left, then come the values of the message that
has begun. -/
structure Buffered (log : List (Call F × Answer)) (k : ℤ) (values : List ℤ) (older current : List ℤ) : Prop where
  split : values = older ++ current
  between : k = 0 → current = []
  inside : 1 ≤ k → current = [Analysis.idxFrontDoorToken1, Analysis.idxFrontDoorToken2] ++ events (sinceStart log) ∧
    (events (sinceStart log)).length + 1 = k
  older_nil : older = [] ↔ ¬ Pending log

omit [Doubles D] [Floats F D] [CFFTOoura F] in
theorem Buffered.step {log : List (Call F × Answer)} {c : DecoderClass} {C C' : Core F} {r : Option ℤ} {call : Call F}
    (hc : call ≠ .GetDecodedData) (ho : Outcome c C r C') {older current : List ℤ}
    (h : Buffered log C.mDecoding C.mDecodedValues older current) :
    ∃ older' current',
      Buffered (log ++ [(call, .event (r.getD (-1)))]) C'.mDecoding C'.mDecodedValues older' current' := by
  have hpend : Pending (log ++ [(call, .event (r.getD (-1)))]) ↔ Pending log ∨ r.getD (-1) = -3 := pending_event hc
  have hsame : r.getD (-1) ≠ -2 → events (sinceStart (log ++ [(call, .event (r.getD (-1)))])) =
      events (sinceStart log) ++ r.toList := fun h2 => by
    rw [sinceStart_event h2]
    exact events_event ho.ne_neg_one _ _
  cases ho with
  | quiet hd hm hv =>
    refine ⟨older, current, ?_⟩
    have hs := (hsame (by decide)).trans (List.append_nil _)
    exact ⟨hv ▸ h.split, hd ▸ h.between, by rw [hs, hd]; exact h.inside, by rw [hpend, h.older_nil]; simp⟩
  | start h0 hd hm hv =>
    refine ⟨older, [Analysis.idxFrontDoorToken1, Analysis.idxFrontDoorToken2], ?_⟩
    have hs : sinceStart (log ++ [(call, .event (Option.getD (some (-2)) (-1)))]) = [] := sinceStart_start log call
    refine ⟨?_, fun h => by omega, fun _ => ?_, by rw [hpend, h.older_nil]; simp⟩
    · rw [hv, h.split, h.between h0, List.append_nil]
    · rw [hs, hd]
      exact ⟨rfl, rfl⟩
  | @token _ r h1 h18 hr hd hm hv =>
    refine ⟨older, current ++ [r], ?_⟩
    have hs := hsame (show r ≠ -2 by omega)
    obtain ⟨hcur, hlen⟩ := h.inside h1
    refine ⟨?_, fun h => by omega, fun _ => ?_, ?_⟩
    · rw [hv, h.split, List.append_assoc]
    · rw [hs, hcur, List.append_assoc, List.length_append, hd]
      refine ⟨rfl, ?_⟩
      push_cast
      simp only [Option.toList_some, List.length_singleton, Nat.cast_one]
      omega
    · rw [hpend, h.older_nil]
      have : r ≠ -3 := by omega
      simp [this]
  | finished h19 hd hm hv =>
    refine ⟨older ++ current, [], ?_⟩
    obtain ⟨hcur, -⟩ := h.inside (by omega)
    refine ⟨?_, fun _ => rfl, fun h => by omega, ?_⟩
    · rw [hv, h.split, List.append_nil]
    · rw [hpend, hcur]
      simp

theorem run_buffered {log : List (Call F × Answer)} {d : Decoder F}
    (h : Run Decoder.call (Decoder.new mem memRS c g samplingRate W) log d) (hpolls : PolledBetween log) :
    ∃ older current, Buffered log d.core.mDecoding d.core.mDecodedValues older current := by
  refine (h.rule (fun log d => Grammatical d.core.mDecoding (events log) ∧ (PolledBetween log →
    ∃ older current, Buffered log d.core.mDecoding d.core.mDecodedValues older current))
    ⟨.nil, fun _ => ⟨[], [], rfl, fun _ => rfl, fun h => absurd h (show ¬ (1 : ℤ) ≤ 0 by decide),
      by simp [Pending, sincePoll]⟩⟩ ?_).2 hpolls
  rintro log d call a d' ⟨hg, ih⟩ hcall
  obtain ⟨hcls, ⟨r, rfl, ho, hne⟩ | ⟨rfl, ⟨ret, s, rfl⟩, hcore⟩⟩ := call_cases hcall
  · rw [events_event ho.ne_neg_one]
    refine ⟨hg.step ho, fun hp => ?_⟩
    obtain ⟨older, current, hb⟩ := ih hp.before
    exact hb.step hne ho
  · rw [events_data, hcore]
    refine ⟨hg, fun hp => ⟨[], [], ?_⟩⟩
    have h0 := hg.at_end (hp log _ [] rfl)
    exact ⟨rfl, fun _ => rfl, fun (h : 1 ≤ d.core.mDecoding) => by omega, iff_of_true rfl (not_pending_poll _ _)⟩

/-- At the end of a message its 20 values are the last ones in the vector, after what unpolled messages left. -/
theorem values_split {log : List (Call F × Answer)} {call : Call F} {d : Decoder F}
    (h : Run Decoder.call (Decoder.new mem memRS c g samplingRate W) (log ++ [(call, .event (-3))]) d)
    (hpolls : PolledBetween log) :
    ∃ older, d.core.mDecodedValues =
        older ++ ([Analysis.idxFrontDoorToken1, Analysis.idxFrontDoorToken2] ++ events (sinceStart log)) ∧
      (events (sinceStart log)).length = 18 ∧ (older = [] ↔ ¬ Pending log) := by
  obtain ⟨d0, h0, hcall⟩ := h.snoc_inv
  obtain ⟨older, current, hb⟩ := run_buffered h0 hpolls
  obtain ⟨-, ⟨r, hr, ho, -⟩ | ⟨-, ⟨ret, s, hr⟩, -⟩⟩ := call_cases hcall
  · have hr : r.getD (-1) = -3 := (Answer.event.inj hr).symm
    cases ho with
    | quiet => exact absurd hr (by decide)
    | start => exact absurd hr (by decide)
    | token _ _ h0 => exact absurd hr (by have := h0.1; simp only [Option.getD_some]; omega)
    | finished h19 hd hm hv =>
      obtain ⟨hcur, hlen⟩ := hb.inside (by omega)
      have hk := (run_grammatical h0).2.range.2
      exact ⟨older, by rw [hv, hb.split, hcur], by omega, hb.older_nil⟩
  · exact absurd hr (by simp)

/-! ## Polls while no message is complete -/

theorem run_unpolled {log : List (Call F × Answer)} {d : Decoder F}
    (h : Run Decoder.call (Decoder.new mem memRS c g samplingRate W) log d) (hp : ¬ Pending log) :
    (d.core.mDecodedValues.length : ℤ) ≤ d.core.mDecoding + 1 := by
  refine ((h.rule (fun log d => 0 ≤ d.core.mDecoding ∧ (¬ Pending log →
    (d.core.mDecoding = 0 → d.core.mDecodedValues = []) ∧
      (d.core.mDecodedValues.length : ℤ) ≤ d.core.mDecoding + 1))
    ⟨le_rfl, fun _ => ⟨fun _ => rfl, show (0 : ℤ) ≤ 0 + 1 by decide⟩⟩ ?_).2 hp).2
  rintro log d call a d' ⟨hk, ih⟩ hcall
  obtain ⟨-, ⟨r, rfl, ho, hne⟩ | ⟨rfl, ⟨ret, s, rfl⟩, hcore⟩⟩ := call_cases hcall
  · rw [pending_event hne, not_or]
    cases ho with
    | quiet hd hm hv =>
      rw [hd, hv]
      exact ⟨hk, fun hp => ih hp.1⟩
    | start hd0 hd hm hv =>
      refine ⟨by omega, fun hp => ⟨fun h => by omega, ?_⟩⟩
      rw [hd, hv, (ih hp.1).1 hd0]
      decide
    | token h1 h18 hr hd hm hv =>
      refine ⟨by omega, fun hp => ⟨fun h => by omega, ?_⟩⟩
      have := (ih hp.1).2
      rw [hd, hv, List.length_append, List.length_singleton]
      push_cast
      omega
    | finished _ hd =>
      exact ⟨by omega, fun hp => absurd rfl hp.2⟩
  · rw [hcore]
    exact ⟨hk, fun _ => ⟨fun _ => rfl, by simp only [List.length_nil]; omega⟩⟩

/-- While no complete message is pending, a poll reads past the end of the vector, or it takes the values of a message
whose end has not been returned yet and answers as if the message were complete; it never answers `0`. -/
theorem poll_unguarded {log : List (Call F × Answer)} {d : Decoder F}
    (h : Run Decoder.call (Decoder.new mem memRS c g samplingRate W) log d) (hp : ¬ Pending log) :
    (¬ ∃ s d', d.GetDecodedData = some (0, s, d')) ∧
      (d.GetDecodedData = none ∨ d.core.mDecoding = 19 ∧ d.core.mDecodedValues.length = 20 ∧
        ∃ ret s d', d.GetDecodedData = some (ret, s, d') ∧ (ret = 9 ∨ ret = -9) ∧ d'.core.mDecodedValues = []) := by
  have hlen := run_unpolled h hp
  have hrange := (run_grammatical h).2.range
  constructor
  · rintro ⟨s, d', hd⟩
    obtain ⟨-, hret, -⟩ := getDecodedData_inv hd
    omega
  · rcases hd : d.GetDecodedData with _ | ⟨ret, s, d'⟩
    · exact Or.inl rfl
    · obtain ⟨h20, hret, -, -, hcore⟩ := getDecodedData_inv hd
      exact Or.inr ⟨by omega, by omega, ret, s, d', rfl, hret, by rw [hcore]⟩

/-- The first call of all: nothing is pending, and the vector is read past its end. -/
theorem poll_first :
    let d : Decoder ℝ := Decoder.new default default .NonAudibleMultiTone initial 44100 2048
    Run Decoder.call d [] d ∧ ¬ Pending ([] : List (Call ℝ × Answer)) ∧ d.GetDecodedData = none :=
  ⟨.nil, by simp [Pending, sincePoll], getDecodedData_none (show 0 < 20 by decide)⟩

theorem poll_unguarded_first :
    ¬ ∃ s d', (Decoder.new default default .NonAudibleMultiTone initial 44100 2048 : Decoder ℝ).GetDecodedData =
      some (0, s, d') :=
  (poll_unguarded .nil (show ¬ Pending ([] : List (Call ℝ × Answer)) by simp [Pending, sincePoll])).1

end Runs

end Decoder

end Undertone
