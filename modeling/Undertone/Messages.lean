import Undertone.Chord

/-!
# Messages

What a multi-tone decoder does with the blocks of a message, and what the vector holds at its end. A block gives a
value exactly when it votes for the tones of some token (`symbol_clock`), and the vector holds the values of the
message alone exactly when the message before it was polled (`values_at_end`). A chord shows for each that the other
case happens.
-/

namespace Undertone

open CountedLoop Globals

variable {F D : Type} [Doubles D] [Floats F D] [CFFTOoura F]

/-! ## The symbol clock -/

namespace Decoder

open Undertone.Core

section Runs

variable {mem : Decoder F} {memRS : ReedSolomon} {c : DecoderClass} {g0 : Globals F} {samplingRate : F} {W : ℕ}

/-- From any state in which the start tokens have just been found: the blocks give one value each exactly when they all
vote for tokens. Then the counter, the read position and the number of blocks follow the values; the next value is that
of the next block, analysed in the phase of its number, and comes with the last frame of the block; and the message
ends after 18 values. -/
theorem symbol_clock (hc : c.isMultiTone = true) {log : List (Call F × Answer)} {call : Call F} {d : Decoder F}
    (h : Run Decoder.call (Decoder.new mem memRS c g0 samplingRate W) (log ++ [(call, .event (-2))]) d)
    {moves : List (Move F × Option ℤ)} {C : Core F} (hm : Run (move c) d.core moves C)
    (hopen : some (-3) ∉ moves.map Prod.snd) :
    (TokenBlocks c d.core moves ↔ OneValueEach c d.core moves) ∧
      (TokenBlocks c d.core moves →
        OnTime c d.core.analysis (frameCount moves) (valueCount moves) C ∧
        (valueCount moves < 18 → ∀ g f, (Consumes c f C → IsTokenPair (blockTones c g f C).1 (blockTones c g f C).2) →
          ∀ r, (step c g f C).1 = some r →
            r = Analysis.idxToken (tokenMode c C)
              (Analysis.votedTones g (tokenMode c C) (valueCount moves + 1 : ℕ) (stored f C) (tokenLane c C)).1
              (Analysis.votedTones g (tokenMode c C) (valueCount moves + 1 : ℕ) (stored f C) (tokenLane c C)).2 ∧
            (2 ≤ d.core.analysis.mSizeBlockCircularBuffer → frameCount moves + 1 =
              blockStart d.core.analysis.mSizeBlockCircularBuffer (valueCount moves) +
                d.core.analysis.mSizeBlockCircularBuffer / 2)) ∧
        (valueCount moves < 18 ∨ valueCount moves = 18 ∧ ∀ g f, (step c g f C).1 = some (-3))) := by
  obtain ⟨d0, h0, hcall⟩ := h.snoc_inv
  have hcls : d0.cls = c := (run_grammatical h0).1
  have hst : Started c d.core := by
    cases call with
    | DecodeAudioBuffer g audioBuffer size =>
      obtain ⟨hret, rfl⟩ := Prod.mk.inj (Option.some.inj hcall)
      rw [← hcls] at hc ⊢
      exact call_started hc (Answer.event.inj hret)
    | GetDecodedData =>
      obtain ⟨⟨ret, s, e⟩, -, hx⟩ := Option.map_eq_some_iff.1 hcall
      exact absurd (congrArg Prod.fst hx) (by simp)
  refine ⟨⟨fun ht l g f r C1 hl hrun hcons => ?_, fun hone l g f r C1 hl hrun hcons => ?_⟩, fun ht => ?_⟩
  · exact (step_appends_iff hc (run_modeOk hst.mode hrun) hcons).1 (ht l g f r C1 hl hrun hcons)
  · exact (step_appends_iff hc (run_modeOk hst.mode hrun) hcons).2 (hone l g f r C1 hl hrun hcons)
  · obtain ⟨hon, hle⟩ := run_onTime hc hst hm hopen ht
    refine ⟨hon, fun hk g f htoken r hr => ?_, ?_⟩
    · rcases hon.step hc hk g f htoken with ⟨hnone, -⟩ | ⟨hval, -, htime⟩
      · exact absurd (hr.symm.trans hnone) (by simp)
      · obtain rfl := Option.some.inj (hr.symm.trans hval)
        have hd : C.mDecoding = ((valueCount moves + 1 : ℕ) : ℤ) := by
          rw [hon.decoding]
          push_cast
          rfl
        rw [blockTones, hd]
        exact ⟨rfl, htime⟩
    · rcases Nat.lt_or_eq_of_le hle with hlt | heq
      · exact Or.inl hlt
      · refine Or.inr ⟨heq, fun g f => ?_⟩
        have hd := hon.decoding
        rw [step_finished c g f (by omega)]

end Runs

/-- The chord that makes a token of every block: the 18 values of its first message. -/
theorem symbol_clock_chord :
    ∃ (log : List (Call ℝ × Answer)) (call : Call ℝ) (d : Decoder ℝ) (moves : List (Move ℝ × Option ℤ)) (C : Core ℝ),
      Run Decoder.call audible (log ++ [(call, .event (-2))]) d ∧ Run (move .AudibleMultiTone) d.core moves C ∧
        TokenBlocks .AudibleMultiTone d.core moves ∧ frameCount moves = 324 ∧
        OnTime .AudibleMultiTone d.core.analysis 324 (valueCount moves) C := by
  have hsound := chord_sounds (d := 267) (by decide) (by decide) (by decide)
  obtain ⟨log, call, d, hrun, A0, T, hread⟩ := play_starts (g := initial) chord_tokens.1 hsound rfl
  obtain ⟨moves, C, hmoves, -, hopen, htokens, hcount⟩ :=
    hread.run (g := initial) rfl (fun m => hsound audible.frames.mAnalBufferFloat (35 + m))
    le_rfl (fun m _ _ => chord_tokens.2 _ (Nat.mod_lt _ (by decide))) 324 le_rfl
  have h := (symbol_clock (c := .AudibleMultiTone) rfl hrun hmoves hopen).2 htokens
  refine ⟨log, call, d, moves, C, hrun, hmoves, htokens, hcount, ?_⟩
  rw [← hcount]
  exact h.1

/-- The other chord: its second block is consumed and gives no value. -/
theorem symbol_lost :
    ∃ (log : List (Call ℝ × Answer)) (call : Call ℝ) (d : Decoder ℝ) (moves : List (Move ℝ × Option ℤ)) (C : Core ℝ),
      Run Decoder.call audible (log ++ [(call, .event (-2))]) d ∧ Run (move .AudibleMultiTone) d.core moves C ∧
        some (-3) ∉ moves.map Prod.snd ∧ ¬ OneValueEach .AudibleMultiTone d.core moves := by
  have hsound := chord_sounds (d := 27) (by decide) (by decide) (by decide)
  obtain ⟨log, call, d, hrun, A0, T, hread⟩ := play_starts (g := initial) chord_no_token.1 hsound rfl
  obtain ⟨moves, C, hmoves, hread', hopen, -, -⟩ := hread.run (g := initial) rfl
    (fun m => hsound audible.frames.mAnalBufferFloat (35 + m)) (show 35 ≤ 324 by decide)
    (fun m hm hfull => by
      obtain rfl : m = 17 := by omega
      exact chord_no_token.2.1) 35 le_rfl
  set frame := FrameBuffer.window 2048 256 audible.frames.mAnalBufferFloat (chord 27) (35 + 35)
  have hcons : Consumes .AudibleMultiTone frame C := (hread'.consumes_iff (by decide) frame).2 rfl
  have hpair : ¬ IsTokenPair (blockTones .AudibleMultiTone initial frame C).1
      (blockTones .AudibleMultiTone initial frame C).2 := by
    rw [hread'.blockTones (by decide) rfl (hsound _ _)]
    exact chord_no_token.2.2
  obtain ⟨A, -, hstep⟩ := step_consumes (c := .AudibleMultiTone) rfl (g := initial) hcons
  rw [if_neg fun h => hpair ((Analysis.idxToken_nonneg (hread'.onTime.mode.range rfl) _ _).1 h)] at hstep
  have hmove : move .AudibleMultiTone (.frame initial frame) C = some (none, { C with
      analysis := Analysis.consumeBlock (tokenLane .AudibleMultiTone C) A }) := congrArg some hstep
  refine ⟨log, call, d, _, _, hrun, .call hmoves hmove, ?_, fun hone => hpair ?_⟩
  · rw [List.map_append, List.mem_append, not_or]
    exact ⟨hopen, by simp⟩
  · exact (step_appends_iff rfl hread'.onTime.mode hcons).2
      (hone moves initial frame none C (List.prefix_refl _) hmoves hcons)

/-! ## The vector at the end of a message -/

section Runs

variable {mem : Decoder F} {memRS : ReedSolomon} {c : DecoderClass} {g : Globals F} {samplingRate : F} {W : ℕ}

/-- At the end of a message the vector holds its 20 values and nothing else exactly when the message before it, if any,
was polled. -/
theorem values_at_end {log : List (Call F × Answer)} {call : Call F} {d : Decoder F}
    (h : Run Decoder.call (Decoder.new mem memRS c g samplingRate W) (log ++ [(call, .event (-3))]) d)
    (hpolls : PolledBetween log) :
    (d.core.mDecodedValues.length = 20 ∧ d.core.mDecodedValues =
        [Analysis.idxFrontDoorToken1, Analysis.idxFrontDoorToken2] ++ events (sinceStart log)) ↔ ¬ Pending log := by
  obtain ⟨older, hsplit, hlen, holder⟩ := values_split h hpolls
  rw [hsplit, ← holder]
  constructor
  · rintro ⟨-, h⟩
    exact List.append_left_eq_self.1 h
  · rintro rfl
    refine ⟨?_, rfl⟩
    rw [List.nil_append, List.length_append, hlen]
    rfl

end Runs

/-- The chord that makes a token of every block: its first message. -/
theorem values_at_end_chord :
    ∃ (log : List (Call ℝ × Answer)) (call : Call ℝ) (d : Decoder ℝ),
      Run Decoder.call audible (log ++ [(call, .event (-3))]) d ∧ d.core.mDecodedValues.length = 20 ∧
        d.core.mDecodedValues = [Analysis.idxFrontDoorToken1, Analysis.idxFrontDoorToken2] ++
          events (sinceStart log) := by
  obtain ⟨log, call, d, hrun, hpolls, hend⟩ := play_ends (g := initial) chord_tokens.1
    (chord_sounds (d := 267) (by decide) (by decide) (by decide)) rfl chord_tokens.2 0
  obtain ⟨hbetween, hpending⟩ := unpolled hpolls
  rw [hend] at hpending
  exact ⟨log, call, d, hrun, (values_at_end hrun hbetween).2 fun h => absurd (hpending.1 h) (by decide)⟩

/-- Its second message, with no poll after the first. -/
theorem values_pile_up :
    ∃ (log : List (Call ℝ × Answer)) (call : Call ℝ) (d : Decoder ℝ),
      Run Decoder.call audible (log ++ [(call, .event (-3))]) d ∧ PolledBetween log ∧
        d.core.mDecodedValues.length ≠ 20 := by
  obtain ⟨log, call, d, hrun, hpolls, hend⟩ := play_ends (g := initial) chord_tokens.1
    (chord_sounds (d := 267) (by decide) (by decide) (by decide)) rfl chord_tokens.2 1
  obtain ⟨hbetween, hpending⟩ := unpolled hpolls
  obtain ⟨older, hsplit, hlen, holder⟩ := values_split hrun hbetween
  refine ⟨log, call, d, hrun, hbetween, fun h20 => ?_⟩
  rw [hsplit, List.length_append, List.length_append, hlen] at h20
  have hnil : older = [] := List.length_eq_zero_iff.1 (by simp only [List.length_cons, List.length_nil] at h20; omega)
  exact holder.1 hnil (hpending.2 (hend.2 le_rfl))

end Decoder

end Undertone
