import Undertone.Chunking
import Undertone.Correction

/-!
# A receiver

A caller of the library hands over the samples of a stream chunk by chunk, and asks for the decoded word whenever
`OXY_DecodeAudioBuffer` reports a complete one. A call returns with the frame that completes a word, so the caller asks
before the next frame is analysed, however the stream is cut: what it receives is what it would receive if it asked
after every frame (`Receiver.run_attends`).
-/

namespace Undertone

open CountedLoop RingBuffer Globals

namespace FrameBuffer

variable {F σ : Type}

/-- The direct analysis of `n` frames and then `m` more. -/
theorem direct_add (step : (ℕ → F) → σ → Option ℤ × σ) (frame : ℕ → ℕ → F) (s : σ) (n m : ℕ) :
    direct step frame s (n + m) =
      ((direct step frame s n).1 ++ (direct step (fun j => frame (n + j)) (direct step frame s n).2 m).1,
        (direct step (fun j => frame (n + j)) (direct step frame s n).2 m).2) := by
  induction m with
  | zero => exact Prod.ext (List.append_nil _).symm rfl
  | succ m ih =>
    rw [← Nat.add_assoc]
    simp only [direct, ih, List.append_assoc]

end FrameBuffer

variable {F D : Type} [Doubles D] [Floats F D] [CFFTOoura F]

/-! ## A word for every message -/

namespace Core

/-- The analysis of a frame, and what a caller does that takes the values whenever a message is complete. -/
def attend (step : (ℕ → F) → Core F → Option ℤ × Core F) (frame : ℕ → F) (st : Core F × List (List ℤ)) :
    Option ℤ × Core F × List (List ℤ) :=
  let (r, C) := step frame st.1
  if r = some (-3) then (r, { C with mDecodedValues := [] }, st.2 ++ [C.mDecodedValues]) else (r, C, st.2)

variable {step : (ℕ → F) → Core F → Option ℤ × Core F}

omit [Doubles D] [Floats F D] [CFFTOoura F] in
/-- While no message is complete the caller does nothing. -/
theorem direct_attend {frame : ℕ → ℕ → F} {C : Core F} (words : List (List ℤ)) : ∀ {m : ℕ},
    -3 ∉ (FrameBuffer.direct step frame C m).1 →
    FrameBuffer.direct (attend step) frame (C, words) m =
      ((FrameBuffer.direct step frame C m).1, (FrameBuffer.direct step frame C m).2, words)
  | 0, _ => rfl
  | m + 1, h => by
    simp only [FrameBuffer.direct, List.mem_append, not_or] at h
    have ih := direct_attend words h.1
    rcases hs : step (frame m) (FrameBuffer.direct step frame C m).2 with ⟨r, C'⟩
    have hr : r ≠ some (-3) := by
      rintro rfl
      rw [hs] at h
      exact h.2 (List.mem_singleton_self _)
    simp only [FrameBuffer.direct, ih, attend, hs, if_neg hr]

variable (step)

omit [Doubles D] [Floats F D] [CFFTOoura F] in
/-- The words are never taken back. -/
theorem attend_words (frame : ℕ → ℕ → F) (st : Core F × List (List ℤ)) {n m : ℕ} (h : n ≤ m) :
    (FrameBuffer.direct (attend step) frame st n).2.2 <+: (FrameBuffer.direct (attend step) frame st m).2.2 := by
  induction m, h using Nat.le_induction with
  | base => exact List.prefix_refl _
  | succ m _ ih =>
    refine ih.trans ?_
    simp only [FrameBuffer.direct, attend]
    split
    · exact List.prefix_append _ _
    · exact List.prefix_refl _

omit [Doubles D] [Floats F D] [CFFTOoura F] in
/-- A call that completes a word returns at once, so the caller can as well take the values after the call. -/
theorem frameLoop_attend : ∀ (fuel : ℕ) (B : FrameBuffer F) (C : Core F) (words : List (List ℤ)),
    FrameBuffer.frameLoop (attend step) fuel (B, C, words) =
      let (r, B', C') := FrameBuffer.frameLoop step fuel (B, C)
      if r = some (-3) then (r, B', { C' with mDecodedValues := [] }, words ++ [C'.mDecodedValues])
      else (r, B', C', words)
  | 0, _, _, _ => rfl
  | fuel + 1, B, C, words => by
    by_cases h : B.getSizeFilledFrameCircularBuffer ≥ B.mWindowSize
    · rcases hst : step B.nextFrame.mAnalBufferFloat C with ⟨_ | r, C'⟩
      · have hst' : attend step B.nextFrame.mAnalBufferFloat (C, words) = (none, C', words) := by
          simp only [attend, hst]
          rfl
        rw [FrameBuffer.frameLoop_next h hst, FrameBuffer.frameLoop_next h hst']
        exact frameLoop_attend fuel B.nextFrame C' words
      · rw [FrameBuffer.frameLoop_event h hst]
        by_cases hr : some r = some (-3)
        · have hst' : attend step B.nextFrame.mAnalBufferFloat (C, words) =
              (some r, { C' with mDecodedValues := [] }, words ++ [C'.mDecodedValues]) := by
            simp only [attend, hst, if_pos hr]
          rw [FrameBuffer.frameLoop_event h hst']
          exact (if_pos hr).symm
        · have hst' : attend step B.nextFrame.mAnalBufferFloat (C, words) = (some r, C', words) := by
            simp only [attend, hst, if_neg hr]
          rw [FrameBuffer.frameLoop_event h hst']
          exact (if_neg hr).symm
    · rw [FrameBuffer.frameLoop_short h, FrameBuffer.frameLoop_short h]
      rfl

end Core

/-! ## The receiver -/

/-- A decoder, how much of a stream it was given, and the words that the caller has asked for. -/
structure Receiver (F : Type) where
  played : ℕ
  decoder : Decoder F
  received : List (ℤ × List Char)

namespace Receiver

/-- `OXY_DecodeAudioBuffer` on the next `size` samples of the stream `x`, if the ring has room for them, and
`OXY_GetDecodedData` when it reports a complete word. -/
def listen (g : Globals F) (x : ℕ → F) (size : ℕ) (R : Receiver F) : Option (ℤ × Receiver F) :=
  if Decoder.Fits R.decoder size then
    let (ret, d) := R.decoder.DecodeAudioBuffer g (fun i => x (R.played + i)) size
    if ret = -3 then
      d.GetDecodedData.map fun (n, stringDecoded, d) => (ret, ⟨R.played + size, d, R.received ++ [(n, stringDecoded)]⟩)
    else some (ret, ⟨R.played + size, d, R.received⟩)
  else none

/-- A decoder of this class in which these values are pending answers with this word. -/
def Answers (c : DecoderClass) (values : List ℤ) (word : ℤ × List Char) : Prop :=
  ∃ d d' : Decoder F, d.cls = c ∧ d.core.mDecodedValues = values ∧ d.GetDecodedData = some (word.1, word.2, d')

/-- After `n` frames the receiver is where the analysis of the first `n` windows is, and it has asked for the words of
the messages that were complete. -/
structure Attends (c : DecoderClass) (g : Globals F) (x : ℕ → F) (d0 : Decoder F) (R : Receiver F) (n : ℕ) : Prop where
  cls : R.decoder.cls = c
  tracks : FrameBuffer.Tracks d0.frames.mWindowSize d0.frames.mHopSize d0.frames.mAnalBufferFloat x R.decoder.frames
    R.played n
  core : R.decoder.core = (FrameBuffer.direct (Core.attend (Core.step c g)) (FrameBuffer.window d0.frames.mWindowSize
    d0.frames.mHopSize d0.frames.mAnalBufferFloat x) (d0.core, []) n).2.1
  received : List.Forall₂ (Answers (F := F) c) (FrameBuffer.direct (Core.attend (Core.step c g))
    (FrameBuffer.window d0.frames.mWindowSize d0.frames.mHopSize d0.frames.mAnalBufferFloat x) (d0.core, []) n).2.2
    R.received

variable {c : DecoderClass} {g : Globals F} {x : ℕ → F} {d0 : Decoder F} {R R' : Receiver F} {n size : ℕ} {r : ℤ}

theorem Attends.unread (h : Attends c g x d0 R n) : R.decoder.unread = R.played - n * d0.frames.mHopSize :=
  h.tracks.filled

theorem Attends.room (h : Attends c g x d0 R n) (hH : 0 < d0.frames.mHopSize)
    (hHW : d0.frames.mHopSize ≤ d0.frames.mWindowSize) (hfits : Decoder.Fits R.decoder size) :
    R.played + size < n * d0.frames.mHopSize + d0.frames.mWindowSize * 4 := by
  unfold Decoder.Fits at hfits
  rw [h.unread, h.tracks.window] at hfits
  have hle := h.tracks.le
  omega

/-- What a call does, in terms of the analysis that asks after every frame. -/
theorem listen_inv (h : listen g x size R = some (r, R')) (words : List (List ℤ)) :
    Decoder.Fits R.decoder size ∧ R'.played = R.played + size ∧ R'.decoder.cls = R.decoder.cls ∧
    ∃ (ret : Option ℤ) (words' : List (List ℤ)) (asked : List (ℤ × List Char)),
      FrameBuffer.feed (Core.attend (Core.step R.decoder.cls g)) (fun i => x (R.played + i)) size
        (R.decoder.frames, R.decoder.core, words) = (ret, R'.decoder.frames, R'.decoder.core, words ++ words') ∧
      r = ret.getD (-1) ∧ ret ≠ some (-1) ∧ R'.received = R.received ++ asked ∧
      List.Forall₂ (Answers (F := F) R.decoder.cls) words' asked := by
  unfold listen at h
  split at h
  case isFalse => exact absurd h (by simp)
  case isTrue hfits =>
    have hloop := Core.frameLoop_attend (Core.step R.decoder.cls g)
      (R.decoder.frames.write (fun i => x (R.played + i)) size).getSizeFilledFrameCircularBuffer
      (R.decoder.frames.write (fun i => x (R.played + i)) size) R.decoder.core words
    have hne := (Decoder.feed_outcome R.decoder.cls g (fun i => x (R.played + i)) size R.decoder.frames
      R.decoder.core).ne_neg_one
    unfold Decoder.DecodeAudioBuffer at h
    rcases hfeed : FrameBuffer.feed (Core.step R.decoder.cls g) (fun i => x (R.played + i)) size
      (R.decoder.frames, R.decoder.core) with ⟨ret, B, C⟩
    rw [hfeed] at h hne
    unfold FrameBuffer.feed at hfeed ⊢
    simp only at hfeed hloop h hne ⊢
    rw [hfeed] at hloop
    rw [hloop]
    by_cases hret : ret = some (-3)
    · subst hret
      simp only [Option.getD_some, if_true] at h ⊢
      obtain ⟨⟨m, s, d⟩, hdata, heq⟩ := Option.map_eq_some_iff.1 h
      obtain ⟨rfl, rfl⟩ := Prod.mk.inj heq
      obtain ⟨-, -, hcls, hframes, hcore⟩ := Decoder.getDecodedData_inv hdata
      refine ⟨hfits, rfl, hcls, some (-3), [C.mDecodedValues], [(m, s)], ?_, rfl, by decide, rfl, ?_⟩
      · rw [hframes, hcore]
      · exact .cons ⟨{ R.decoder with frames := B, core := C }, d, rfl, rfl, hdata⟩ .nil
    · have hreturn : ret.getD (-1) ≠ -3 := by
        cases ret with
        | none => decide
        | some v => exact fun hv => hret (congrArg some hv)
      rw [if_neg hreturn] at h
      rw [if_neg hret]
      obtain ⟨rfl, rfl⟩ := Prod.mk.inj (Option.some.inj h)
      refine ⟨hfits, rfl, rfl, ret, [], [], ?_, rfl, hne, (List.append_nil _).symm, .nil⟩
      rw [List.append_nil]

/-- A call of the receiver. It finds nothing more, or it takes a frame. -/
theorem Attends.call (h : Attends c g x d0 R n) (hH : 0 < d0.frames.mHopSize)
    (hHW : d0.frames.mHopSize ≤ d0.frames.mWindowSize) (hcall : listen g x size R = some (r, R')) :
    ∃ n', n ≤ n' ∧ Attends c g x d0 R' n' ∧
      (r = -1 → R'.played < n' * d0.frames.mHopSize + d0.frames.mWindowSize) ∧ (r ≠ -1 → n < n') := by
  set frame := FrameBuffer.window d0.frames.mWindowSize d0.frames.mHopSize d0.frames.mAnalBufferFloat x with hframe
  obtain ⟨hfits, hplayed, hcls, ret, words', asked, hfeed, hr, hne, hreceived, hasked⟩ := listen_inv hcall
    (FrameBuffer.direct (Core.attend (Core.step c g)) frame (d0.core, []) n).2.2
  rw [h.cls] at hfeed hcls hasked
  obtain ⟨n', hn', h1, h2, h3, h4, -⟩ := FrameBuffer.feed_direct (Core.attend (Core.step c g)) hH hHW (d0.core, [])
    h.tracks (h.room hH hHW hfits) (fun i _ => (rfl : (fun i => x (R.played + i)) i = _))
    (show (R.decoder.core, (FrameBuffer.direct (Core.attend (Core.step c g)) frame (d0.core, []) n).2.2) = _ from
      Prod.ext h.core rfl)
  rw [hfeed] at h1 h2 h3 h4
  have hstate : (R'.decoder.core, _) = (FrameBuffer.direct (Core.attend (Core.step c g)) frame (d0.core, []) n').2 := h2
  refine ⟨n', hn', ⟨hcls, ?_, congrArg Prod.fst hstate, ?_⟩, fun hr1 => ?_, fun hr1 => ?_⟩
  · rw [hplayed]
    exact h1
  · rw [← hstate, hreceived]
    exact List.rel_append h.received hasked
  · rw [hplayed]
    refine h4 ?_
    cases ret with
    | none => rfl
    | some v => exact absurd (congrArg some (hr.symm.trans hr1)) hne
  · refine lt_of_le_of_ne hn' ?_
    rintro rfl
    cases ret with
    | none => exact hr1 hr
    | some v => simp at h3

/-- A call that has room returns, if every word that could be complete can be decoded. -/
theorem Attends.answered (h : Attends c g x d0 R n) (hH : 0 < d0.frames.mHopSize)
    (hHW : d0.frames.mHopSize ≤ d0.frames.mWindowSize) (hfits : Decoder.Fits R.decoder size)
    (hanswer : ∀ n', n' * d0.frames.mHopSize ≤ R.played + size → ∀ values ∈ (FrameBuffer.direct
      (Core.attend (Core.step c g)) (FrameBuffer.window d0.frames.mWindowSize d0.frames.mHopSize
        d0.frames.mAnalBufferFloat x) (d0.core, []) n').2.2, ∀ d : Decoder F, d.core.mDecodedValues = values →
        ∃ answer, d.GetDecodedData = some answer) : ∃ r R', listen g x size R = some (r, R') := by
  obtain rfl := h.cls
  set frame := FrameBuffer.window d0.frames.mWindowSize d0.frames.mHopSize d0.frames.mAnalBufferFloat x with hframe
  unfold listen Decoder.DecodeAudioBuffer
  rw [if_pos hfits]
  rcases hfeed : FrameBuffer.feed (Core.step R.decoder.cls g) (fun i => x (R.played + i)) size
    (R.decoder.frames, R.decoder.core) with ⟨ret, B, C⟩
  simp only
  by_cases hret : ret.getD (-1) = -3
  · rw [if_pos hret]
    obtain rfl : ret = some (-3) := by
      cases ret with
      | none => exact absurd hret (by decide)
      | some v => exact congrArg some hret
    obtain ⟨n', -, h1, h2, -⟩ := FrameBuffer.feed_direct (Core.attend (Core.step R.decoder.cls g)) hH hHW (d0.core, [])
      h.tracks (h.room hH hHW hfits) (fun i _ => (rfl : (fun i => x (R.played + i)) i = _))
      (show (R.decoder.core, (FrameBuffer.direct (Core.attend (Core.step R.decoder.cls g)) frame (d0.core, []) n).2.2) =
        _ from
        Prod.ext h.core rfl)
    unfold FrameBuffer.feed at hfeed h2
    simp only [Core.frameLoop_attend] at hfeed h2
    rw [hfeed] at h2
    obtain ⟨answer, hdata⟩ := hanswer n' h1.le C.mDecodedValues
      (by rw [← h2]; exact List.mem_append_right _ (List.mem_singleton_self _))
      { R.decoder with frames := B, core := C } rfl
    rw [hdata]
    exact ⟨_, _, rfl⟩
  · rw [if_neg hret]
    exact ⟨_, _, rfl⟩

theorem attends_new {mem : Decoder F} {memRS : ReedSolomon} {g0 : Globals F} {samplingRate : F} {W : ℕ}
    (hHW : Decoder.hopSize samplingRate ≤ W) : Attends c g x (Decoder.new mem memRS c g0 samplingRate W)
      ⟨0, Decoder.new mem memRS c g0 samplingRate W, []⟩ 0 :=
  ⟨rfl, (Decoder.inStep_new (c := c) (g := g) hHW).tracks, rfl, .nil⟩

/-- Whatever the cut of the stream, the receiver is where it would be if it asked after every frame. Where the last call
found nothing, it has analysed every window that the stream has a full one of. -/
theorem run_attends {mem : Decoder F} {memRS : ReedSolomon} {g0 : Globals F} {samplingRate : F} {W : ℕ}
    (hHW : Decoder.hopSize samplingRate ≤ W) {log : List (ℕ × ℤ)}
    (h : Run (listen g x) ⟨0, Decoder.new mem memRS c g0 samplingRate W, []⟩ log R) :
    ∃ n, Attends c g x (Decoder.new mem memRS c g0 samplingRate W) R n ∧
      ∀ e, log.getLast? = some e → e.2 = -1 → R.played < n * Decoder.hopSize samplingRate + W := by
  refine h.rule (fun log R => ∃ n, Attends c g x (Decoder.new mem memRS c g0 samplingRate W) R n ∧
      ∀ e, log.getLast? = some e → e.2 = -1 → R.played < n * Decoder.hopSize samplingRate + W)
    ⟨0, attends_new hHW, fun e he => absurd he (by simp)⟩ ?_
  rintro log R1 size r R2 ⟨n, hn, -⟩ hcall
  obtain ⟨n', -, hn', hrest, -⟩ := hn.call (Decoder.hopSize_pos samplingRate) hHW hcall
  refine ⟨n', hn', fun e he hr => hrest ?_⟩
  rw [List.getLast?_concat] at he
  obtain rfl := Option.some.inj he
  exact hr

end Receiver

end Undertone
