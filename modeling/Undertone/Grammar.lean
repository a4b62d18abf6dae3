import Undertone.Leftover

/-!
# The grammar of the events

Over every run of calls, with polls at any time, the values returned are messages, and the decoder of all modes analyses
a message in the one mode in which it found the start tokens (`events_grammar`). What is said about the tokens is said
about the frames that the calls themselves analyse: `analysed` lists them, with the state before each of them.
-/

namespace Undertone

open CountedLoop Globals

variable {F D : Type} [Doubles D] [Floats F D] [CFFTOoura F]

/-! ## The frames of a call -/

/-- A frame in the loop of `DecodeAudioBuffer`: the state that it finds, and the value returned if it is the last. -/
structure Analysed (F : Type) where
  before : Core F
  frame : ℕ → F
  result : Option ℤ

/-- The token that the decoder of all modes finds with the frame when it decodes in the mode `m`. -/
def Analysed.token (g : Globals F) (m : ℤ) (e : Analysed F) : ℤ :=
  (e.before.analysis.AnalyzeToken g m e.before.mDecoding m.toNat e.frame).1

/-- The state has the mode `m`, and in a message the frame gives what `AnalyzeToken` returns for this mode. -/
def Analysed.InMode (g : Globals F) (m : ℤ) (e : Analysed F) : Prop :=
  e.before.mDecodingMode = m ∧ (1 ≤ e.before.mDecoding → e.before.mDecoding ≤ 18 →
    e.result = if 0 ≤ e.token g m then some (e.token g m) else none)

namespace Core

/-- The analysis with a record of the frames. -/
def recording (c : DecoderClass) (g : Globals F) (frame : ℕ → F) (st : Core F × List (Analysed F)) :
    Option ℤ × Core F × List (Analysed F) :=
  let (r, C) := step c g frame st.1
  (r, C, st.2 ++ [⟨st.1, frame, r⟩])

theorem step_inMode (g : Globals F) (frame : ℕ → F) (C : Core F) :
    Analysed.InMode g C.mDecodingMode ⟨C, frame, (step .AllMultiTone g frame C).1⟩ := by
  refine ⟨rfl, fun (h1 : 1 ≤ C.mDecoding) (h18 : C.mDecoding ≤ 18) => ?_⟩
  show (step .AllMultiTone g frame C).1 = _
  unfold step
  rw [if_neg (by omega), if_pos ⟨by omega, h18⟩]
  show (if (C.AnalyzeToken .AllMultiTone g frame).1 ≥ 0 then _ else _ : Option ℤ × Core F).1 = _
  by_cases h0 : (C.AnalyzeToken .AllMultiTone g frame).1 ≥ 0
  · rw [if_pos h0]
    exact (if_pos h0).symm
  · rw [if_neg h0]
    exact (if_neg h0).symm

end Core

namespace Decoder

/-- The frames that a call of `DecodeAudioBuffer` analyses, in their order. -/
def analysed (g : Globals F) (audioBuffer : ℕ → F) (size : ℕ) (d : Decoder F) : List (Analysed F) :=
  (FrameBuffer.feed (Core.recording d.cls g) audioBuffer size (d.frames, d.core, [])).2.2.2

/-- The record changes nothing. -/
theorem feed_recording (g : Globals F) (audioBuffer : ℕ → F) (size : ℕ) (d : Decoder F) :
    FrameBuffer.feed (Core.recording d.cls g) audioBuffer size (d.frames, d.core, []) =
      let (r, B, C) := FrameBuffer.feed (Core.step d.cls g) audioBuffer size (d.frames, d.core)
      (r, B, C, d.analysed g audioBuffer size) := by
  have hmap := FrameBuffer.feed_map (Core.step d.cls g) (Core.recording d.cls g) Prod.fst
    (fun _ _ => rfl) audioBuffer size d.frames (d.core, [])
  simp only at hmap
  rw [hmap]
  rfl

/-- The token `r` comes from the last frame of the call, by `AnalyzeToken` in the mode `m`. -/
def LastToken (g : Globals F) (m r : ℤ) (frames : List (Analysed F)) : Prop :=
  ∃ e, frames.getLast? = some e ∧ 1 ≤ e.before.mDecoding ∧ e.before.mDecoding ≤ 18 ∧ e.token g m = r

/-- What the loop keeps until start tokens are found: every frame was analysed in the mode `m`, and a token is the one
of the last frame. -/
structure InOneMode (g : Globals F) (m : ℤ) (r : Option ℤ) (st : Core F × List (Analysed F)) : Prop where
  mode : r ≠ some (-2) → st.1.mDecodingMode = m
  frames : ∀ e ∈ st.2, e.InMode g m
  last : ∀ v, r = some v → 0 ≤ v → LastToken g m v st.2

theorem InOneMode.step {g : Globals F} {m : ℤ} {st : Core F × List (Analysed F)} (h : InOneMode g m none st)
    (frame : ℕ → F) :
    InOneMode g m (Core.recording .AllMultiTone g frame st).1 (Core.recording .AllMultiTone g frame st).2 := by
  obtain ⟨C, frames⟩ := st
  have hmode : C.mDecodingMode = m := h.mode (by simp)
  have ho := Core.step_outcome .AllMultiTone g frame C
  have hin : Analysed.InMode g m ⟨C, frame, (Core.step .AllMultiTone g frame C).1⟩ := hmode ▸ Core.step_inMode g frame C
  refine ⟨fun h2 => (ho.mode h2).trans hmode, fun e he => ?_, fun v hv h0 => ?_⟩
  · rcases List.mem_append.1 he with he | he
    · exact h.frames e he
    · rwa [List.mem_singleton.1 he]
  · have hv : (Core.step .AllMultiTone g frame C).1 = some v := hv
    rw [hv] at ho hin
    obtain ⟨h1, h18⟩ := ho.token_inv h0
    refine ⟨_, List.getLast?_concat, h1, h18, ?_⟩
    have hresult : some v = _ := hin.2 h1 h18
    split at hresult
    · exact (Option.some.inj hresult).symm
    · cases hresult

/-- A call that finds no start tokens. -/
theorem inOneMode_call (g : Globals F) (audioBuffer : ℕ → F) (size : ℕ) {d : Decoder F} (hc : d.cls = .AllMultiTone) :
    InOneMode g d.core.mDecodingMode
      (FrameBuffer.feed (Core.step d.cls g) audioBuffer size (d.frames, d.core)).1
      ((d.DecodeAudioBuffer g audioBuffer size).2.core, d.analysed g audioBuffer size) := by
  have h := FrameBuffer.feed_rule (Core.recording .AllMultiTone g) (InOneMode g d.core.mDecodingMode)
    (fun frame st h => h.step frame) audioBuffer size d.frames (d.core, [])
    ⟨fun _ => rfl, fun e he => absurd he (by simp), fun v hv => absurd hv (by simp)⟩
  rw [← hc, feed_recording] at h
  exact h

/-- Every call of the log analyses all its frames in the mode `m`, and the tokens that the calls return are those that
their last frames give in this mode. -/
def TokensIn (m : ℤ) (d : Decoder F) (log : List (AnyCall F × Answer)) : Prop :=
  ∀ l g audioBuffer size r d', l ++ [(.defined (.DecodeAudioBuffer g audioBuffer size), .event r)] <+: log →
    Run anyCall d l d' →
    (∀ e ∈ d'.analysed g audioBuffer size, e.InMode g m) ∧ (0 ≤ r → LastToken g m r (d'.analysed g audioBuffer size))

/-! ## The grammar -/

/-- The mode stays the same until the next start tokens. -/
theorem run_mode {log : List (AnyCall F × Answer)} {d d' : Decoder F} (h : Run anyCall d log d') :
    d'.cls = d.cls ∧ (-2 ∉ events log → d'.core.mDecodingMode = d.core.mDecodingMode) := by
  refine h.rule (fun log d' => d'.cls = d.cls ∧
    (-2 ∉ events log → d'.core.mDecodingMode = d.core.mDecodingMode)) ⟨rfl, fun _ => rfl⟩ ?_
  rintro log d1 call a d2 ⟨hc, ih⟩ hcall
  obtain ⟨hcls, ⟨r, rfl, ho⟩ | ⟨⟨ret, s, rfl⟩, -, hm⟩⟩ := anyCall_cases hcall
  · refine ⟨hcls.trans hc, fun h2 => ?_⟩
    rw [events_event ho.ne_neg_one, List.mem_append, not_or] at h2
    exact (ho.mode fun hr => h2.2 (by simp [hr])).trans (ih h2.1)
  · refine ⟨hcls.trans hc, fun h2 => ?_⟩
    rw [events_data] at h2
    exact hm.trans (ih h2)

theorem run_tokens {log : List (AnyCall F × Answer)} {d d' : Decoder F} (hc : d.cls = .AllMultiTone)
    (h : Run anyCall d log d') (h2 : -2 ∉ events log) : TokensIn d.core.mDecodingMode d log := by
  rintro l g audioBuffer size r d1 ⟨l', rfl⟩ hrun
  rw [events_append, events_append, List.mem_append, List.mem_append, not_or, not_or] at h2
  obtain ⟨hcls, hm⟩ := run_mode hrun
  obtain ⟨d2, hd2, -⟩ := h.split
  obtain ⟨d1', hd1', hcall⟩ := hd2.snoc_inv
  obtain rfl := hd1'.deterministic hrun
  have hone := inOneMode_call g audioBuffer size (hcls.trans hc)
  have hne := (feed_outcome d1'.cls g audioBuffer size d1'.frames d1'.core).ne_neg_one
  have hr : (FrameBuffer.feed (Core.step d1'.cls g) audioBuffer size (d1'.frames, d1'.core)).1.getD (-1) = r :=
    Answer.event.inj (congrArg Prod.fst (Option.some.inj hcall))
  rw [hm h2.1.1] at hone
  refine ⟨hone.frames, fun h0 => hone.last r ?_ h0⟩
  rcases hfeed : (FrameBuffer.feed (Core.step d1'.cls g) audioBuffer size (d1'.frames, d1'.core)).1 with _ | v
  · rw [hfeed] at hr
    have hr : -1 = r := hr
    omega
  · rw [hfeed] at hr
    exact congrArg some hr

section Runs

variable {mem : Decoder F} {memRS : ReedSolomon} {c : DecoderClass} {g : Globals F} {samplingRate : F} {W : ℕ}

/-- Whatever is played, however it is cut into calls and whenever the decoder is polled: the events are messages, each
of them the start tokens, 18 tokens and the end, up to the point that has been reached; and the decoder of all modes
keeps the mode in which it found the start tokens, and finds all tokens of the message in it. -/
theorem events_grammar {log : List (AnyCall F × Answer)} {d : Decoder F}
    (h : Run anyCall (Decoder.new mem memRS c g samplingRate W) log d) :
    (∃ blocks : List (List ℤ), (∀ b ∈ blocks, IsMessage b) ∧ events log <+: blocks.flatten) ∧
      (0 ≤ d.core.mDecoding ∧ d.core.mDecoding ≤ 19) ∧
      (c = .AllMultiTone → ∀ (log' : List (AnyCall F × Answer)) (d' : Decoder F), Run anyCall d log' d' →
        -2 ∉ events log' →
        d'.core.mDecodingMode = d.core.mDecodingMode ∧ TokensIn d.core.mDecodingMode d log') := by
  obtain ⟨hcls, hg⟩ := any_grammatical h
  exact ⟨hg.completes, hg.range, fun hc log' d' h' h2 => ⟨(run_mode h').2 h2, run_tokens (hcls.trans hc) h' h2⟩⟩

end Runs

/-! ## A message -/

/-- Calls of one hop each, behind a ring that lacks one hop for its first frame, analyse one frame each. -/
theorem hops (d0 : Decoder F) {W H p : ℕ} {tail x : ℕ → F} (hH : 0 < H) (hHW : H ≤ W)
    (h0 : FrameBuffer.Tracks W H tail x d0.frames p 0) (hp : p + H = W) (g : Globals F) :
    ∀ (k : ℕ) {moves : List (Core.Move F × Option ℤ)} {C : Core F}, Run (Core.move d0.cls) d0.core moves C →
      moves.map Prod.fst = (List.range k).map (fun j => .frame g (FrameBuffer.window W H tail x j)) →
      ∃ calls d, Run call d0 calls d ∧ d.cls = d0.cls ∧ d.core = C ∧
        FrameBuffer.Tracks W H tail x d.frames (p + k * H) k ∧ events calls = moves.filterMap Prod.snd
  | 0, moves, C, hrun, hmoves => by
    obtain rfl := List.map_eq_nil_iff.1 hmoves
    obtain rfl := hrun.nil_inv
    exact ⟨[], d0, .nil, rfl, rfl, by rwa [Nat.zero_mul, Nat.add_zero], rfl⟩
  | k + 1, moves, C, hrun, hmoves => by
    rw [List.range_succ, List.map_append, List.map_singleton] at hmoves
    obtain ⟨moves, last, rfl, hfirst, hlast⟩ := List.map_eq_append_iff.1 hmoves
    obtain ⟨⟨m, r⟩, rfl, rfl⟩ := List.map_eq_singleton_iff.1 hlast
    obtain ⟨C1, hrun, hmove⟩ := hrun.snoc_inv
    obtain ⟨calls, d, hcalls, hcls, rfl, htracks, hevents⟩ := hops d0 hH hHW h0 hp g k hrun hfirst
    have hstep : Core.step d0.cls g (FrameBuffer.window W H tail x k) d.core = (r, C) := Option.some.inj hmove
    have hkH : (k + 1) * H = k * H + H := Nat.succ_mul k H
    obtain ⟨B, hdec, hB⟩ := decode_hop hcls hH hHW htracks (by omega) hstep
    have hne := (Core.step_outcome d0.cls g (FrameBuffer.window W H tail x k) d.core).ne_neg_one
    rw [hstep] at hne
    refine ⟨_, _, .call hcalls (call_of_decode hdec), hcls, rfl, ?_, ?_⟩
    · rw [hkH, ← Nat.add_assoc]
      exact hB
    · rw [events_event hne, hevents, List.filterMap_append]
      cases r <;> rfl

/-- A poll past the end that happens to change nothing. -/
theorem anyCall_beyond {d : Decoder F} (h : d.GetDecodedData = none) (ret : ℤ) (s : List Char) :
    d.anyCall (.beyond ret s d.core.mDecodedValues d.mReedSolomon d.mDecodedValuesOrig d.mConfidenceCorrection) =
      some (.data ret s, d) := by
  simp only [anyCall, h]
  rfl

/-- Messages up to the first end are one message. -/
theorem isMessage_of_end {blocks : List (List ℤ)} {es : List ℤ} (hb : ∀ b ∈ blocks, IsMessage b)
    (hes : es ++ [-3] <+: blocks.flatten) (h3 : -3 ∉ es) :
    ∃ tokens : List ℤ, tokens.length = 18 ∧ (∀ x ∈ tokens, 0 ≤ x ∧ x ≤ 31) ∧ es = -2 :: tokens := by
  have hopen : ∀ l l' : List ℤ, -3 ∉ l → (l ++ -3 :: l').takeWhile (fun x => decide (x ≠ -3)) = l := fun l l' hl => by
    have hne : ∀ x ∈ l, decide (x ≠ -3) = true := fun x hx => decide_eq_true fun h => hl (h ▸ hx)
    rw [List.takeWhile_append_of_pos hne, List.takeWhile_cons_of_neg (by simp), List.append_nil]
  obtain ⟨rest, hrest⟩ := hes
  cases blocks with
  | nil => exact absurd hrest (by simp)
  | cons b blocks =>
    obtain ⟨tokens, hlen, ht, rfl⟩ := hb b (by simp)
    refine ⟨tokens, hlen, ht, ?_⟩
    have heq : es ++ -3 :: rest = (-2 :: tokens) ++ -3 :: blocks.flatten := by simpa using hrest
    have h3' : -3 ∉ -2 :: tokens := by
      rw [List.mem_cons, not_or]
      exact ⟨by decide, fun h => absurd (ht _ h).1 (by decide)⟩
    rw [← hopen es rest h3, heq, hopen _ _ h3']

/-- The calls up to the first value returned. -/
theorem events_cons {κ : Type} {log : List (κ × Answer)} {v : ℤ} {es : List ℤ} (h : events log = v :: es) :
    ∃ l l', log = l ++ l' ∧ events l = [v] ∧ events l' = es := by
  obtain ⟨l, e, l', rfl, hl, he, hes⟩ := List.filterMap_eq_cons_iff.1 h
  refine ⟨l ++ [e], l', by simp, ?_, hes⟩
  rw [events, List.filterMap_append, List.filterMap_eq_nil_iff.2 hl]
  simp [he]

/-- The decoder of all modes, polled too early and then played the chord for as long as its message takes. -/
theorem chord_message : ∃ (log : List (AnyCall ℝ × Answer)) (es : List ℤ) (d : Decoder ℝ),
    Run anyCall (Decoder.new default default .AllMultiTone initial 44100 2048) log d ∧ events log = es ++ [-3] ∧
      -3 ∉ es := by
  set d0 : Decoder ℝ := Decoder.new default default .AllMultiTone initial 44100 2048 with hd0
  obtain ⟨B, hfeed, hB⟩ := FrameBuffer.feed_short (Core.step .AllMultiTone initial) (tracks_new _ _ _ _ (chord 267))
    (show 0 + 1792 < 0 * 256 + 2048 by decide) (fun i => chord 267 (0 + i)) (fun i _ => rfl) d0.core
  have hprime : anyCall (.defined (.DecodeAudioBuffer initial (fun i => chord 267 (0 + i)) 1792)) d0 = _ :=
    call_of_decode (decode_of_feed (d := d0) rfl hfeed)
  have hsound := chord_sounds (d := 267) (by decide) (by decide) (by decide) d0.frames.mAnalBufferFloat
  obtain ⟨moves, C, T, hrun, -, hmoves, hstage, hend⟩ :=
    Trace.stage_run chord_tokens.1 chord_tokens.2 hsound 359 (by decide)
  obtain ⟨r, C', T', hC, hT, -⟩ := hstage.step chord_tokens.1 chord_tokens.2 (hsound 359) (by decide)
  obtain rfl := (hstage.ends hC).2 rfl
  have hcore := Trace.run_core (Run.call hrun hT)
  obtain ⟨calls, d, hcalls, -, -, -, hevents⟩ := hops { d0 with frames := B, core := d0.core } (by decide)
    (by decide) hB rfl initial 360 hcore (by
      rw [List.map_append, hmoves, show 360 = 359 + 1 from rfl, List.range_succ (n := 359), List.map_append]
      rfl)
  have hpoll : d0.GetDecodedData = none := getDecodedData_none (show 0 < 20 by decide)
  have hfirst := Run.call (Run.call Run.nil (anyCall_beyond hpoll 9 [])) hprime
  refine ⟨_, moves.filterMap Prod.snd, d, hfirst.append (run_any hcalls), ?_, ?_⟩
  · rw [events_append, events_map, hevents, List.filterMap_append]
    rfl
  · intro h3
    obtain ⟨e, he, he3⟩ := List.mem_filterMap.1 h3
    exact absurd (hend.1 (List.mem_map.2 ⟨e, he, he3⟩)) (by decide)

theorem events_grammar_chord : ∃ (log log' : List (AnyCall ℝ × Answer)) (d d' : Decoder ℝ) (tokens : List ℤ),
    Run anyCall (Decoder.new default default .AllMultiTone initial 44100 2048) log d ∧ Run anyCall d log' d' ∧
      events log = [-2] ∧ events log' = tokens ++ [-3] ∧ tokens.length = 18 ∧
      d'.core.mDecodingMode = d.core.mDecodingMode ∧ TokensIn d.core.mDecodingMode d log' := by
  obtain ⟨log, es, d', hrun, hes, h3⟩ := chord_message
  obtain ⟨blocks, hb, hgrammar⟩ := (events_grammar hrun).1
  rw [hes] at hgrammar
  obtain ⟨tokens, hlen, ht, rfl⟩ := isMessage_of_end hb hgrammar h3
  rw [List.cons_append] at hes
  obtain ⟨l, l', rfl, hl, hl'⟩ := events_cons hes
  obtain ⟨d, hd, hd'⟩ := hrun.split
  have h2 : -2 ∉ events l' := by
    rw [hl', List.mem_append, not_or]
    exact ⟨fun h => absurd (ht _ h).1 (by decide), by decide⟩
  obtain ⟨hmode, htokens⟩ := (events_grammar hd).2.2 rfl l' d' hd' h2
  exact ⟨l, l', d, d', tokens, hd, hd', hl, hl', hlen, hmode, htokens⟩

end Decoder

end Undertone
