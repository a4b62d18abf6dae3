import Undertone.Reception.Message
import Undertone.Reception.Receiver

/-!
# A broadcast

Any number of messages are on the air one after the other, with pauses in between (`OnAir`). A decoder that listens
from the first pause on hears every one of them, once and in order, and is back in its search before the next begins
(`Idle.hears`). So a caller that asks for every complete word receives the words that were sent, however the samples are
cut into chunks, as long as at most four of the 20 symbols of a message sound like others (`words_received`).
-/

namespace Undertone

open CountedLoop RingBuffer Globals Analysis SpectralAnalysis Checked

namespace Core

/-! ## Messages on the air -/

/-- A message as it sounds: when its start tokens begin, and the symbols that follow. -/
structure Transmission where
  start : ℕ
  symbols : ℕ → ℤ

namespace Transmission

/-- The 20 values that a decoder collects. -/
def values (t : Transmission) : List ℤ := [idxFrontDoorToken1, idxFrontDoorToken2] ++ (List.range 18).map t.symbols

/-- What a decoder reports. -/
def events (t : Transmission) : List ℤ := [-2] ++ (List.range 18).map t.symbols ++ [-3]

end Transmission

/-- The message is on the air after a pause from frame `t0` on: a half ring of frames for each start token and for each
symbol. At most `q` frames of a symbol are disturbed, `tol` of the first start token and `2 * tol - 1` of the second
one; and until the first one ends no frame has the tone of the second among its two strongest. -/
structure Airs (g : Globals ℝ) (mode : ℤ) (n tol q : ℕ) (A0 : Analysis ℝ) (air : ℕ → ℕ → ℝ) (t0 : ℕ)
    (t : Transmission) : Prop where
  pause : t0 + n + 2 * tol + 1 ≤ t.start + n / 2
  quiet : ∀ j, t0 ≤ j → j < t.start + n / 2 → ¬ Second (note A0 (air j))
  first : AllBut tol (fun j => First (note A0 (air j))) t.start (t.start + n / 2)
  second : AllBut (2 * tol - 1) (fun j => Second (note A0 (air j))) (t.start + n / 2) (t.start + n / 2 + n / 2)
  carries : Carries g mode n q A0 t.symbols air (t.start + n)

/-- From frame `t0` to frame `N` these messages are on the air, one after the other. -/
def OnAir (g : Globals ℝ) (mode : ℤ) (n tol q : ℕ) (A0 : Analysis ℝ) (air : ℕ → ℕ → ℝ) :
    ℕ → List Transmission → ℕ → Prop
  | t0, [], N => t0 ≤ N ∧ ∀ j, t0 ≤ j → j < N → ¬ Second (note A0 (air j))
  | t0, t :: ts, N =>
    Airs g mode n tol q A0 air t0 t ∧ OnAir g mode n tol q A0 air (t.start + 10 * n) ts N

section Air

variable {g : Globals ℝ} {mode : ℤ} {n tol q N : ℕ} {A0 : Analysis ℝ} {air : ℕ → ℕ → ℝ}

theorem OnAir.le : ∀ {ts : List Transmission} {t0 : ℕ}, OnAir g mode n tol q A0 air t0 ts N → t0 ≤ N
  | [], _, h => h.1
  | t :: ts, _, h => by
    have hlater := OnAir.le h.2
    have hpause := h.1.pause
    omega

/-- Up to the end of one of them. -/
theorem OnAir.upTo : ∀ {ts ts' : List Transmission} {t : Transmission} {t0 : ℕ},
    OnAir g mode n tol q A0 air t0 (ts ++ t :: ts') N →
      OnAir g mode n tol q A0 air t0 (ts ++ [t]) (t.start + 10 * n) ∧ t.start + 10 * n ≤ N
  | [], _, _, _, h => ⟨⟨h.1, le_rfl, fun j hj hj' => absurd hj' (by omega)⟩, OnAir.le h.2⟩
  | _ :: _, _, _, _, h => ⟨⟨h.1, (OnAir.upTo h.2).1⟩, (OnAir.upTo h.2).2⟩

/-- The symbols of a message from the frame at which the decoder begins to read, up to `d` frames early. -/
theorem Carries.early {v : ℕ → ℤ} {b s d : ℕ} (h : Carries g mode n q A0 v air b) (hs : s ≤ b) (hb : b ≤ s + d) :
    Carries g mode n (q + d) A0 v (fun j => air (s + j)) 0 := by
  intro k hk
  obtain ⟨hv, hshows⟩ := h k hk
  refine ⟨hv, ?_⟩
  have hearly : AllBut (q + d) (fun i => ShowsToken g mode (k + 1) A0 (v k) (air i)) (s + (0 + blockStart n k))
      (s + (0 + blockStart n k + n / 2)) := (hshows.early (by omega)).sub le_rfl (by omega)
  exact (AllBut.shift s).1 hearly

end Air

/-! ## Frame by frame -/

section Frames

variable {c : DecoderClass} {g : Globals ℝ} {n tol q N : ℕ} {A0 : Analysis ℝ} {air : ℕ → ℕ → ℝ}

/-- A message that begins in the search is heard as a whole, and the next search begins before the message is off the
air. -/
theorem Idle.hears_one (hc : c.isMultiTone = true) (hone : c ≠ .AllMultiTone) (htune : InTune g c.mode A0)
    (hmode : A0.mSpectralAnalysis.mode = .kEnergySpectrum) (htolerance : A0.mnToleranceFrames = tol) (htol : 1 ≤ tol)
    (hq : 2 * (q + (2 * tol + n % 2)) < n / 2) {T t0 E : ℕ} {C : Core ℝ} {t : Transmission}
    (h : Idle n A0 (fun j => air (T + j)) E 0 C) (hvalues : C.mDecodedValues = []) (hT : T ≤ t0) (ht0 : t0 ≤ T + n / 2)
    (hair : Airs g c.mode n tol q A0 air t0 t) (words : List (List ℤ)) :
    ∃ T' E' C', T ≤ T' ∧ T' ≤ t.start + 10 * n ∧ t.start + 10 * n ≤ T' + n / 2 ∧
      FrameBuffer.direct (attend (Core.step c g)) (fun j => air (T + j)) (C, words) (T' - T) =
        (t.events, C', words ++ [t.values]) ∧
      C'.mDecodedValues = [] ∧ Idle n A0 (fun j => air (T' + j)) E' 0 C' := by
  have hpause := hair.pause
  have hopening : Opening n tol A0 (fun j => air (T + j)) (t.start - T) := by
    refine ⟨by omega, fun j hj hj' => hair.quiet (T + j) (by omega) (by omega), ?_, ?_⟩
    · exact (AllBut.shift (P := fun j => First (note A0 (air j))) T).1 (hair.first.sub (by omega) (by omega))
    · exact (AllBut.shift (P := fun j => Second (note A0 (air j))) T).1 (hair.second.sub (by omega) (by omega))
  obtain ⟨s, C1, hlow, hhigh, hstart, hstarted, hsettled, hvalues1⟩ :=
    h.starts hc hone rdftLocal_real htune htolerance htol (by omega) hopening (g := g)
  have hearly := hair.carries.early (s := T + s) (d := 2 * tol + n % 2) (by omega) (by omega)
  obtain ⟨E', C2, hresults, hend, hvalues2, hidle⟩ := hstarted.receives hsettled h.size hc hone (by omega) htune hmode
    hearly (by omega) (fun j => air (T + s + (9 * n + 1) + j))
  rw [hvalues, List.nil_append] at hvalues1
  rw [hvalues1] at hvalues2
  refine ⟨T + s + (9 * n + 1), E', { C2 with mDecodedValues := [] }, by omega, by omega, by omega, ?_, rfl,
    ⟨hidle.decoding, hidle.settled, hidle.size, hidle.write, hidle.read, hidle.noted⟩⟩
  have hopen1 : -3 ∉ (FrameBuffer.direct (Core.step c g) (fun j => air (T + j)) C s).1 := by
    rw [hstart]
    exact fun hmem => absurd (List.mem_singleton.1 hmem) (by decide)
  have hopen2 : -3 ∉ (FrameBuffer.direct (Core.step c g) (fun j => air (T + s + j)) C1 (9 * n)).1 := by
    rw [hresults]
    intro hmem
    obtain ⟨k, hk, hsymbol⟩ := List.mem_map.1 hmem
    have := (hair.carries k (List.mem_range.1 hk)).1
    omega
  have hsame : (fun j => air (T + (s + j))) = fun j => air (T + s + j) := by
    funext j
    rw [Nat.add_assoc]
  rw [show T + s + (9 * n + 1) - T = s + (9 * n + 1) by omega, FrameBuffer.direct_add, direct_attend words hopen1,
    hstart, hsame]
  simp only [FrameBuffer.direct, direct_attend words hopen2, hresults, attend, hend, if_true, hvalues2]
  rfl

/-- All of them are heard, in their order. -/
theorem Idle.hears (hc : c.isMultiTone = true) (hone : c ≠ .AllMultiTone) (htune : InTune g c.mode A0)
    (hmode : A0.mSpectralAnalysis.mode = .kEnergySpectrum) (htolerance : A0.mnToleranceFrames = tol) (htol : 1 ≤ tol)
    (hq : 2 * (q + (2 * tol + n % 2)) < n / 2) : ∀ {ts : List Transmission} {T t0 E : ℕ} {C : Core ℝ}
    (words : List (List ℤ)), Idle n A0 (fun j => air (T + j)) E 0 C → C.mDecodedValues = [] → T ≤ t0 → t0 ≤ T + n / 2 →
    OnAir g c.mode n tol q A0 air t0 ts N → ∃ C',
      FrameBuffer.direct (attend (Core.step c g)) (fun j => air (T + j)) (C, words) (N - T) =
        (ts.flatMap Transmission.events, C', words ++ ts.map Transmission.values)
  | [], T, t0, E, C, words, h, hvalues, hT, ht0, hair => by
    obtain ⟨hresults, -, -⟩ := h.waits hc hone rdftLocal_real htune htolerance (by omega) (m := N - T) (g := g)
      (fun j hj hj' => hair.2 (T + j) (by omega) (by omega)) (N - T) le_rfl
    have hopen : -3 ∉ (FrameBuffer.direct (Core.step c g) (fun j => air (T + j)) C (N - T)).1 := by
      rw [hresults]
      exact List.not_mem_nil
    refine ⟨(FrameBuffer.direct (Core.step c g) (fun j => air (T + j)) C (N - T)).2, ?_⟩
    rw [direct_attend words hopen, hresults, List.map_nil, List.append_nil]
    rfl
  | t :: ts, T, t0, E, C, words, h, hvalues, hT, ht0, hair => by
    obtain ⟨hair, hlater⟩ := hair
    obtain ⟨T', E', C', hT', hoff, hoff', hone', hvalues', hidle⟩ := h.hears_one hc hone htune hmode htolerance htol hq
      hvalues hT ht0 hair words
    obtain ⟨C'', hrest⟩ := Idle.hears hc hone htune hmode htolerance htol hq (words ++ [t.values]) hidle hvalues' hoff
      hoff' hlater
    have hle := hlater.le
    have hsame : (fun j => air (T + (T' - T + j))) = fun j => air (T' + j) := by
      funext j
      rw [← Nat.add_assoc, Nat.add_sub_cancel' hT']
    refine ⟨C'', ?_⟩
    rw [show N - T = T' - T + (N - T') by omega, FrameBuffer.direct_add, hone', hsame, hrest, List.append_assoc]
    rfl

end Frames

end Core

/-! ## Chunk by chunk -/

namespace Receiver

open Core

/-- What the decoder collects of the message differs from what the encoder sent for the payload in at most four of the
20 symbols. -/
def Recoverable (t : Transmission) (payload : List Char) : Prop :=
  payload.length = 9 ∧ (∀ ch ∈ payload, InAlphabet ch) ∧
    ∃ (e e' : Encoder ℝ) (T : List ℤ), e.digits payload = some (T, e') ∧ ReedSolomon.mismatches 20 t.values T ≤ 4

/-- The word of a payload: nine characters and the terminating one. -/
def word (payload : List Char) : ℤ × List Char := (9, payload.map Char.toLower ++ ['\x00'])

section Stream

variable {c : DecoderClass} {g : Globals ℝ} {n tol q N : ℕ}

/-- The message is decoded. -/
theorem Recoverable.decodes {t : Transmission} {payload : List Char} (hsent : Recoverable t payload)
    (hrange : ∀ k < 18, 0 ≤ t.symbols k ∧ t.symbols k ≤ 31) {d : Decoder ℝ}
    (hvalues : d.core.mDecodedValues = t.values) :
    ∃ d', d.GetDecodedData = some ((word payload).1, (word payload).2, d') := by
  obtain ⟨hlen, halpha, e, e', T, hT, hmismatches⟩ := hsent
  obtain ⟨T', e1, hT', -, -, hcorrects⟩ := Decoder.getDecodedData_corrects e hlen halpha
  obtain ⟨rfl, -⟩ := Prod.mk.inj (Option.some.inj (hT.symm.trans hT'))
  have hsyms : ∀ x ∈ d.core.mDecodedValues, 0 ≤ x ∧ x ≤ 31 := by
    rw [hvalues]
    intro x hx
    rcases List.mem_append.1 hx with hx | hx
    · have htokens : ∀ x ∈ [idxFrontDoorToken1, idxFrontDoorToken2], 0 ≤ x ∧ x ≤ 31 := by decide
      exact htokens x hx
    · obtain ⟨k, hk, rfl⟩ := List.mem_map.1 hx
      exact hrange k (List.mem_range.1 hk)
  have hlength : d.core.mDecodedValues.length = 20 := by
    rw [hvalues]
    simp [Transmission.values]
  obtain ⟨d', hd, -⟩ := hcorrects d hlength hsyms (hvalues ▸ hmismatches)
  exact ⟨d', hd⟩

theorem answers_word {t : Transmission} {payload : List Char} (hsent : Recoverable t payload)
    (hrange : ∀ k < 18, 0 ≤ t.symbols k ∧ t.symbols k ≤ 31) {w : ℤ × List Char}
    (h : Answers (F := ℝ) c t.values w) : w = word payload := by
  obtain ⟨d, d', -, hvalues, hdata⟩ := h
  obtain ⟨d1, hd1⟩ := hsent.decodes hrange hvalues
  rw [hd1] at hdata
  obtain ⟨h1, h2, -⟩ : (word payload).1 = w.1 ∧ (word payload).2 = w.2 ∧ d1 = d' := by
    simpa only [Option.some.injEq, Prod.mk.injEq] using hdata
  exact Prod.ext h1.symm h2.symm

theorem answers_words {sent : List (Transmission × List Char)} (hsent : ∀ p ∈ sent, Recoverable p.1 p.2)
    (hrange : ∀ p ∈ sent, ∀ k < 18, 0 ≤ p.1.symbols k ∧ p.1.symbols k ≤ 31) {received : List (ℤ × List Char)}
    (h : List.Forall₂ (Answers (F := ℝ) c) (sent.map fun p => p.1.values) received) :
    received = sent.map fun p => word p.2 := by
  induction sent generalizing received with
  | nil =>
    cases h
    rfl
  | cons p sent ih =>
    obtain ⟨w, rest, hw, hrest, rfl⟩ := List.forall₂_cons_left_iff.1 h
    rw [List.map_cons, answers_word (hsent p List.mem_cons_self) (hrange p List.mem_cons_self) hw,
      ih (fun p hp => hsent p (List.mem_cons_of_mem _ hp)) (fun p hp => hrange p (List.mem_cons_of_mem _ hp)) hrest]

theorem symbols_range {A0 : Analysis ℝ} {air : ℕ → ℕ → ℝ} : ∀ {ts : List Transmission} {t0 : ℕ},
    OnAir g c.mode n tol q A0 air t0 ts N → ∀ t ∈ ts, ∀ k < 18, 0 ≤ t.symbols k ∧ t.symbols k ≤ 31
  | [], _, _, _, ht => absurd ht List.not_mem_nil
  | t :: ts, _, h, t', ht => by
    rcases List.mem_cons.1 ht with rfl | ht
    · exact fun k hk => (h.1.carries k hk).1
    · exact symbols_range h.2 t' ht

/-- The decoder before its first frame. -/
theorem idle_new {mem : Decoder ℝ} {memRS : ReedSolomon} {g0 : Globals ℝ} {samplingRate : ℝ} {W : ℕ}
    (hn : 2 ≤ (Decoder.new mem memRS c g0 samplingRate W).core.analysis.mSizeBlockCircularBuffer)
    (frames : ℕ → ℕ → ℝ) : Idle (Decoder.new mem memRS c g0 samplingRate W).core.analysis.mSizeBlockCircularBuffer
      (Decoder.new mem memRS c g0 samplingRate W).core.analysis frames 0 0
      (Decoder.new mem memRS c g0 samplingRate W).core := by
  have hlane : 0 < c.lanes := by cases c <;> exact Nat.zero_lt_succ _
  refine ⟨rfl, ⟨.rfl', rfl⟩, rfl, (Nat.zero_mod _).symm, ?_, fun j hj => absurd hj (Nat.not_lt_zero j)⟩
  rw [show 0 + (0 + 2 - (Decoder.new mem memRS c g0 samplingRate W).core.analysis.mSizeBlockCircularBuffer) = 0 by
    omega, Nat.zero_mod]
  simp only [Decoder.new, Decoder.newAnalysis, if_pos hlane]
  rfl

end Stream

/-! ## The words -/

section Words

variable {c : DecoderClass} {g : Globals ℝ} {n tol q N W : ℕ} {mem : Decoder ℝ} {memRS : ReedSolomon} {g0 : Globals ℝ}
  {samplingRate : ℝ} {x : ℕ → ℝ}

/-- The values of the messages that are over, in the analysis that takes them after every frame. -/
theorem words_direct (hc : c.isMultiTone = true) (hone : c ≠ .AllMultiTone)
    (htune : InTune g c.mode (Decoder.new mem memRS c g0 samplingRate W).core.analysis)
    (hsize : (Decoder.new mem memRS c g0 samplingRate W).core.analysis.mSizeBlockCircularBuffer = n)
    (htolerance : (Decoder.new mem memRS c g0 samplingRate W).core.analysis.mnToleranceFrames = tol) (htol : 1 ≤ tol)
    (hq : 2 * (q + (2 * tol + n % 2)) < n / 2) {air : ℕ → ℕ → ℝ} {ts : List Transmission}
    (hair : OnAir g c.mode n tol q (Decoder.new mem memRS c g0 samplingRate W).core.analysis air 0 ts N) :
    (FrameBuffer.direct (attend (Core.step c g)) air ((Decoder.new mem memRS c g0 samplingRate W).core, []) N).2.2 =
      ts.map Transmission.values := by
  set d0 := Decoder.new mem memRS c g0 samplingRate W with hd0
  have hzero : (fun j => air (0 + j)) = air := by
    funext j
    rw [Nat.zero_add]
  have hidle : Idle n d0.core.analysis (fun j => air (0 + j)) 0 0 d0.core := by
    have hnew : Idle d0.core.analysis.mSizeBlockCircularBuffer d0.core.analysis (fun j => air (0 + j)) 0 0 d0.core :=
      idle_new (by rw [← hd0, hsize]; omega) _
    rwa [hsize] at hnew
  obtain ⟨C', hdirect⟩ := Idle.hears hc hone htune rfl htolerance htol hq [] hidle rfl le_rfl (Nat.zero_le _) hair
  rw [hzero, Nat.sub_zero] at hdirect
  rw [hdirect]
  rfl

/-- A caller that hands over a stream in chunks that fit, and asks for the word whenever one is complete, receives the
words that were sent, in their order and each once: at no time anything else, and each of them at the latest when it is
off the air and a call finds nothing more. -/
theorem words_received (hc : c.isMultiTone = true) (hone : c ≠ .AllMultiTone) (hHW : Decoder.hopSize samplingRate ≤ W)
    (htune : InTune g c.mode (Decoder.new mem memRS c g0 samplingRate W).core.analysis)
    (hsize : (Decoder.new mem memRS c g0 samplingRate W).core.analysis.mSizeBlockCircularBuffer = n)
    (htolerance : (Decoder.new mem memRS c g0 samplingRate W).core.analysis.mnToleranceFrames = tol) (htol : 1 ≤ tol)
    (hq : 2 * (q + (2 * tol + n % 2)) < n / 2) {sent : List (Transmission × List Char)}
    (hair : OnAir g c.mode n tol q (Decoder.new mem memRS c g0 samplingRate W).core.analysis
      (FrameBuffer.window W (Decoder.hopSize samplingRate)
        (Decoder.new mem memRS c g0 samplingRate W).frames.mAnalBufferFloat x) 0 (sent.map Prod.fst) N)
    (hsent : ∀ p ∈ sent, Recoverable p.1 p.2) {log : List (ℕ × ℤ)} {R : Receiver ℝ}
    (hrun : Run (listen g x) ⟨0, Decoder.new mem memRS c g0 samplingRate W, []⟩ log R)
    (hplayed : R.played ≤ N * Decoder.hopSize samplingRate) :
    R.received <+: sent.map (fun p => word p.2) ∧
      ∀ l p l', sent = l ++ p :: l' → (p.1.start + 10 * n) * Decoder.hopSize samplingRate + W ≤ R.played →
        (∃ size, log.getLast? = some (size, -1)) ∨ R.decoder.unread < W → l.length < R.received.length := by
  set d0 := Decoder.new mem memRS c g0 samplingRate W with hd0
  set air := FrameBuffer.window W (Decoder.hopSize samplingRate) d0.frames.mAnalBufferFloat x with hairdef
  have hH := Decoder.hopSize_pos samplingRate
  obtain ⟨m, hattends, hrest⟩ := run_attends hHW hrun
  have hmN : m ≤ N := Nat.le_of_mul_le_mul_right (hattends.tracks.le.trans hplayed) hH
  have hreceived : List.Forall₂ (Answers (F := ℝ) c)
      (FrameBuffer.direct (attend (Core.step c g)) air (d0.core, []) m).2.2 R.received := hattends.received
  constructor
  · have hbegins := attend_words (Core.step c g) air (d0.core, []) hmN
    rw [words_direct hc hone htune hsize htolerance htol hq hair, List.map_map] at hbegins
    have htake := List.prefix_iff_eq_take.1 hbegins
    rw [← List.map_take] at htake
    rw [htake] at hreceived
    generalize (FrameBuffer.direct (attend (Core.step c g)) air (d0.core, []) m).2.2.length = k at hreceived
    have hmem : ∀ p ∈ sent.take k, p ∈ sent := fun p hp => List.mem_of_mem_take hp
    rw [answers_words (fun p hp => hsent p (hmem p hp))
      (fun p hp => symbols_range hair p.1 (List.mem_map_of_mem (hmem p hp))) hreceived]
    exact (List.take_prefix _ _).map _
  · rintro l p l' rfl hoff hend
    have hm : R.played < m * Decoder.hopSize samplingRate + W := by
      rcases hend with ⟨size, hlast⟩ | hunread
      · exact hrest _ hlast rfl
      · rw [hattends.unread] at hunread
        exact Nat.sub_lt_iff_lt_add' hattends.tracks.le |>.1 hunread
    rw [List.map_append, List.map_cons] at hair
    obtain ⟨hupTo, -⟩ := hair.upTo
    have hle : p.1.start + 10 * n ≤ m := by
      have hlt : (p.1.start + 10 * n) * Decoder.hopSize samplingRate < m * Decoder.hopSize samplingRate := by omega
      exact (Nat.lt_of_mul_lt_mul_right hlt).le
    have hbegins := (attend_words (Core.step c g) air (d0.core, []) hle).length_le
    rw [words_direct hc hone htune hsize htolerance htol hq hupTo] at hbegins
    have hlength := hreceived.length_eq
    simp only [List.length_map, List.length_append, List.length_singleton] at hbegins
    exact lt_of_lt_of_le (Nat.lt_succ_self _) (hbegins.trans (le_of_eq hlength))

/-- A caller that hands over as many samples as the window moves never has to wait. -/
theorem listens (hc : c.isMultiTone = true) (hone : c ≠ .AllMultiTone) (hHW : Decoder.hopSize samplingRate ≤ W)
    (htune : InTune g c.mode (Decoder.new mem memRS c g0 samplingRate W).core.analysis)
    (hsize : (Decoder.new mem memRS c g0 samplingRate W).core.analysis.mSizeBlockCircularBuffer = n)
    (htolerance : (Decoder.new mem memRS c g0 samplingRate W).core.analysis.mnToleranceFrames = tol) (htol : 1 ≤ tol)
    (hq : 2 * (q + (2 * tol + n % 2)) < n / 2) {sent : List (Transmission × List Char)}
    (hair : OnAir g c.mode n tol q (Decoder.new mem memRS c g0 samplingRate W).core.analysis
      (FrameBuffer.window W (Decoder.hopSize samplingRate)
        (Decoder.new mem memRS c g0 samplingRate W).frames.mAnalBufferFloat x) 0 (sent.map Prod.fst) N)
    (hsent : ∀ p ∈ sent, Recoverable p.1 p.2) : ∀ k ≤ N, ∃ log R,
      Run (listen g x) ⟨0, Decoder.new mem memRS c g0 samplingRate W, []⟩ log R ∧
        R.played = k * Decoder.hopSize samplingRate ∧ R.decoder.unread < W := by
  set d0 := Decoder.new mem memRS c g0 samplingRate W with hd0
  set air := FrameBuffer.window W (Decoder.hopSize samplingRate) d0.frames.mAnalBufferFloat x with hairdef
  have hH := Decoder.hopSize_pos samplingRate
  intro k
  induction k with
  | zero =>
    refine fun _ => ⟨[], _, .nil, (Nat.zero_mul _).symm, ?_⟩
    have hnew : Attends c g x d0 ⟨0, d0, []⟩ 0 := attends_new hHW
    rw [hnew.unread, Nat.zero_sub]
    exact hH.trans_le hHW
  | succ k ih =>
    intro hk
    obtain ⟨log, R, hrun, hplayed, hunread⟩ := ih (by omega)
    obtain ⟨m, hattends, -⟩ := run_attends hHW hrun
    have hattends : Attends c g x d0 R m := hattends
    have hfits : Decoder.Fits R.decoder (Decoder.hopSize samplingRate) := by
      unfold Decoder.Fits
      rw [hattends.tracks.window]
      show _ ≤ 4 * W - 1
      omega
    obtain ⟨r, R', hcall⟩ := hattends.answered hH hHW hfits fun n' hn' values hvalues d hd => by
      have hle : n' ≤ N := by
        refine Nat.le_of_mul_le_mul_right (hn'.trans ?_) hH
        rw [hplayed, ← Nat.succ_mul]
        exact Nat.mul_le_mul_right _ hk
      have hmem := (attend_words (Core.step c g) air (d0.core, []) hle).subset hvalues
      rw [words_direct hc hone htune hsize htolerance htol hq hair, List.map_map] at hmem
      obtain ⟨p, hp, rfl⟩ := List.mem_map.1 hmem
      obtain ⟨d', hdata⟩ := (hsent p hp).decodes (symbols_range hair p.1 (List.mem_map_of_mem hp)) hd
      exact ⟨_, hdata⟩
    obtain ⟨m', -, hattends', hrest, htakes⟩ := hattends.call hH hHW hcall
    obtain ⟨-, hplayed', -⟩ := listen_inv hcall []
    refine ⟨_, R', .call hrun hcall, by rw [hplayed', hplayed, Nat.succ_mul], ?_⟩
    have hle := hattends'.tracks.le
    rw [hattends.unread] at hunread
    rw [hattends'.unread]
    by_cases hr : r = -1
    · have hshort := hrest hr
      have hwindow : d0.frames.mWindowSize = W := rfl
      omega
    · have hmore := Nat.mul_le_mul_right d0.frames.mHopSize (htakes hr)
      have hhop : d0.frames.mHopSize = Decoder.hopSize samplingRate := rfl
      rw [Nat.succ_mul] at hmore
      omega

end Words

end Receiver

end Undertone
