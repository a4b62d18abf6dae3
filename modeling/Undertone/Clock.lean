import Undertone.Decoder.Block
import Undertone.Events

/-!
# The symbol clock

Between the start tokens and the end of a message a multi-tone decoder takes a block of half a ring of frames at a
time. A block whose vote is the pair of tones of some token gives one value; a block whose vote is another pair is
consumed all the same and gives none (`step_appends_iff`). While every vote is a pair of a token, the counter, the
read position and the phase of the tones follow the number of frames since the start tokens (`run_onTime`).
-/

namespace Undertone

open CountedLoop RingBuffer Globals

variable {F D : Type} [Doubles D] [Floats F D] [CFFTOoura F]

namespace Analysis

omit [CFFTOoura F] in
/-- The bin of a tone in the `k`-th block after the start tokens. -/
theorem evalToneBin_phase (g : Globals F) (mode : ℤ) (k : ℕ) (L : Lane F) (i : ℕ) :
    evalToneBin g mode k L i = L.mFreqsBins i + (k % 3 : ℕ) * nBinsOffset g mode := by
  have hmod : (k : ℤ).tmod 3 = (k % 3 : ℕ) := by
    rw [Int.tmod_eq_emod_of_nonneg (by omega)]
    omega
  unfold evalToneBin
  rw [hmod]
  have h3 := Nat.mod_lt k (show 0 < 3 by decide)
  generalize k % 3 = p at h3
  interval_cases p
  · simp
  · simp
  · simp [mul_comm]

omit [CFFTOoura F] in
/-- Some token has these tones exactly when the value of the block is not negative. -/
theorem idxToken_nonneg {mode : ℤ} (h : 0 ≤ mode ∧ mode ≤ 3) (idx1 idx2 : ℤ) :
    0 ≤ idxToken mode idx1 idx2 ↔ IsTokenPair idx1 idx2 := by
  have hmode : idxToken mode idx1 idx2 = getIdxTokenFromIdxsTones idx1 idx2 := by
    obtain ⟨h0, h3⟩ := h
    interval_cases mode <;> rfl
  rw [hmode]
  exact getIdxTokenFromIdxsTones_nonneg

/-! ## Where a message begins -/

/-- The write position is one of the ring. -/
def Wrapped (A : Analysis F) : Prop :=
  A.mWritePosInBlockCircularBuffer % A.mSizeBlockCircularBuffer = A.mWritePosInBlockCircularBuffer

omit [CFFTOoura F] in
theorem searchLoop_spec {found : ℕ → Analysis F → Bool} {t : ℕ} : ∀ {fuel : ℕ} {A : Analysis F}, Wrapped A →
    Wrapped (searchLoop found t fuel A).2 ∧
      ((searchLoop found t fuel A).1 = true → ∃ B, (searchLoop found t fuel A).2 = beginMessage t B)
  | 0, A, h => ⟨h, fun hf => absurd hf (by simp [searchLoop])⟩
  | fuel + 1, A, h => by
    unfold searchLoop
    split
    · split
      · exact ⟨h, fun _ => ⟨A, rfl⟩⟩
      · exact searchLoop_spec (A := advanceReadPos t A) h
    · exact ⟨h, fun hf => absurd hf (by simp)⟩

omit [CFFTOoura F] in
theorem searchMode_spec {t : ℕ} {A : Analysis F} (h : t ≠ 0 → Wrapped A) :
    Wrapped (searchMode t A).2 ∧ ((searchMode t A).1 = true → ∃ B, (searchMode t A).2 = beginMessage t B) := by
  refine searchLoop_spec ?_
  by_cases ht : t = 0
  · rw [if_pos ht]
    exact Nat.mod_mod _ _
  · rw [if_neg ht]
    exact h ht

omit [CFFTOoura F] in
theorem searchModes_found : ∀ {lanes t : ℕ} {A A' : Analysis F} {ret : ℤ}, (t ≠ 0 → Wrapped A) →
    searchModes lanes t A = (ret, A') → ret ≠ 0 →
    Wrapped A' ∧ ∃ (s : ℕ) (B : Analysis F), s < t + lanes ∧ ret = 1 + s ∧ A' = beginMessage s B
  | 0, t, A, A', ret, _, h, h0 => absurd (congrArg Prod.fst h).symm h0
  | lanes + 1, t, A, A', ret, hw, h, h0 => by
    obtain ⟨hw1, hfound⟩ := searchMode_spec hw
    rcases hs : searchMode t A with ⟨found, A1⟩
    rw [hs] at hw1 hfound
    cases found with
    | true =>
      have h1 : searchModes (lanes + 1) t A = (1 + (t : ℤ), A1) := by simp [searchModes, hs]
      obtain ⟨rfl, rfl⟩ := Prod.mk.inj (h1.symm.trans h)
      obtain ⟨B, hB⟩ := hfound rfl
      exact ⟨hw1, t, B, by omega, rfl, hB⟩
    | false =>
      have h1 : searchModes (lanes + 1) t A = searchModes lanes (t + 1) A1 := by simp [searchModes, hs]
      obtain ⟨hw', s, B, hlt, hret, hA⟩ := searchModes_found (fun _ => hw1) (h1.symm.trans h) h0
      exact ⟨hw', s, B, by omega, hret, hA⟩

end Analysis

namespace Core

open Analysis

/-! ## One frame of a message -/

/-- The mode of the tokens. -/
def tokenMode (c : DecoderClass) (C : Core F) : ℤ := if c = .AllMultiTone then C.mDecodingMode else c.mode

/-- The lane of the tokens. -/
def tokenLane (c : DecoderClass) (C : Core F) : ℕ := if c = .AllMultiTone then C.mDecodingMode.toNat else 0

/-- The block ring with the spectrum of the frame. -/
def stored (mAnalBufferFloat : ℕ → F) (C : Core F) : Analysis F :=
  (C.analysis.storeSpectrum mAnalBufferFloat).advanceWritePos

/-- With this frame a token block is full, and `AnalyzeToken` consumes it. -/
def Consumes (c : DecoderClass) (mAnalBufferFloat : ℕ → F) (C : Core F) : Prop :=
  (1 ≤ C.mDecoding ∧ C.mDecoding ≤ 18) ∧ (stored mAnalBufferFloat C).getSizeFilledBlockCircularBuffer (tokenLane c C) ≥
    (stored mAnalBufferFloat C).mSizeBlockCircularBuffer / 2

/-- The two tones that the block votes for. -/
def blockTones (c : DecoderClass) (g : Globals F) (mAnalBufferFloat : ℕ → F) (C : Core F) : ℕ × ℕ :=
  votedTones g (tokenMode c C) C.mDecoding (stored mAnalBufferFloat C) (tokenLane c C)

/-- The mode of the decoder of all modes is one that it listens to. -/
def ModeOk (c : DecoderClass) (C : Core F) : Prop := c = .AllMultiTone → 0 ≤ C.mDecodingMode ∧ C.mDecodingMode ≤ 2

omit [Doubles D] [Floats F D] [CFFTOoura F] in
theorem ModeOk.range {c : DecoderClass} (hc : c.isMultiTone = true) {C : Core F} (h : ModeOk c C) :
    0 ≤ tokenMode c C ∧ tokenMode c C ≤ 3 := by
  unfold tokenMode
  split
  · rename_i hall
    have := h hall
    omega
  · cases c <;> first | exact absurd hc (by decide) | exact ⟨by decide, by decide⟩ | contradiction

theorem AnalyzeToken_multiTone {c : DecoderClass} (hc : c.isMultiTone = true) (g : Globals F) (frame : ℕ → F)
    (C : Core F) :
    C.AnalyzeToken c g frame = C.analysis.AnalyzeToken g (tokenMode c C) C.mDecoding (tokenLane c C) frame := by
  cases c <;> first | exact absurd hc (by decide) | rfl

/-- A frame that fills a block: the value is that of the vote. -/
theorem step_consumes {c : DecoderClass} (hc : c.isMultiTone = true) {g : Globals F} {frame : ℕ → F} {C : Core F}
    (h : Consumes c frame C) :
    ∃ A, KeepsBlock (stored frame C) A ∧ step c g frame C =
      if 0 ≤ idxToken (tokenMode c C) (blockTones c g frame C).1 (blockTones c g frame C).2 then
        (some (idxToken (tokenMode c C) (blockTones c g frame C).1 (blockTones c g frame C).2),
          C.append (idxToken (tokenMode c C) (blockTones c g frame C).1 (blockTones c g frame C).2)
            (consumeBlock (tokenLane c C) A))
      else (none, { C with analysis := consumeBlock (tokenLane c C) A }) := by
  obtain ⟨⟨h1, h18⟩, hfull⟩ := h
  obtain ⟨A, hkeep, hA⟩ := decodeBlock_moves g (tokenMode c C) C.mDecoding (tokenLane c C) (stored frame C)
  have hv := decodeBlock_value g (tokenMode c C) C.mDecoding (tokenLane c C) (stored frame C)
  have hret : C.AnalyzeToken c g frame =
      (idxToken (tokenMode c C) (blockTones c g frame C).1 (blockTones c g frame C).2,
        consumeBlock (tokenLane c C) A) := by
    rw [AnalyzeToken_multiTone hc]
    exact (if_pos hfull).trans (Prod.ext hv hA)
  refine ⟨A, hkeep, ?_⟩
  unfold step
  rw [if_neg (by omega), if_pos ⟨by omega, h18⟩, hret]

/-- A frame that does not fill a block is only stored. -/
theorem step_stores {c : DecoderClass} (hc : c.isMultiTone = true) (g : Globals F) (frame : ℕ → F) (C : Core F)
    (h1 : 1 ≤ C.mDecoding) (h18 : C.mDecoding ≤ 18) (h : ¬ Consumes c frame C) :
    step c g frame C = (none, { C with analysis := stored frame C }) := by
  have hfull : ¬ (stored frame C).getSizeFilledBlockCircularBuffer (tokenLane c C) ≥
      (stored frame C).mSizeBlockCircularBuffer / 2 := fun hf => h ⟨⟨h1, h18⟩, hf⟩
  have hret : C.AnalyzeToken c g frame = (-1, stored frame C) := by
    rw [AnalyzeToken_multiTone hc]
    exact if_neg hfull
  unfold step
  rw [if_neg (by omega), if_pos ⟨by omega, h18⟩, hret]
  rfl

/-- One value is appended for a consumed block exactly when its vote is the pair of tones of a token. -/
theorem step_appends_iff {c : DecoderClass} (hc : c.isMultiTone = true) {g : Globals F} {frame : ℕ → F} {C : Core F}
    (hm : ModeOk c C) (h : Consumes c frame C) :
    IsTokenPair (blockTones c g frame C).1 (blockTones c g frame C).2 ↔
      (step c g frame C).2.mDecoding = C.mDecoding + 1 ∧
        ∃ v, (step c g frame C).2.mDecodedValues = C.mDecodedValues ++ [v] := by
  obtain ⟨A, -, hstep⟩ := step_consumes hc (g := g) h
  rw [hstep, ← idxToken_nonneg (hm.range hc)]
  by_cases hv : 0 ≤ idxToken (tokenMode c C) (blockTones c g frame C).1 (blockTones c g frame C).2
  · rw [if_pos hv]
    exact iff_of_true hv ⟨rfl, _, rfl⟩
  · rw [if_neg hv]
    exact iff_of_false hv fun h => by
      have : C.mDecoding = C.mDecoding + 1 := h.1
      omega

/-! ## The start -/

/-- The decoder has found the start tokens: the first block begins where the next frame goes. -/
structure Started (c : DecoderClass) (C : Core F) : Prop where
  mode : ModeOk c C
  decoding : C.mDecoding = 1
  wrapped : Wrapped C.analysis
  read : (C.analysis.lane (tokenLane c C)).mReadPosInBlockCircularBuffer = C.analysis.mWritePosInBlockCircularBuffer
  start : C.analysis.mEndStartTokenPosInBlockCircularBuffer = C.analysis.mWritePosInBlockCircularBuffer
  acc : C.analysis.mAccumulatedDecodingFrames = 0

theorem AnalyzeStartTokens_multiTone {c : DecoderClass} (hc : c.isMultiTone = true) (frame : ℕ → F) (C : Core F) :
    C.AnalyzeStartTokens c frame = C.analysis.AnalyzeStartTokens c.lanes frame := by
  cases c <;> first | exact absurd hc (by decide) | rfl

/-- Only a search reports a start. -/
theorem idle_of_start {c : DecoderClass} {g : Globals F} {frame : ℕ → F} {C : Core F}
    (h : (step c g frame C).1 = some (-2)) : C.mDecoding = 0 := by
  have ho := step_outcome c g frame C
  rw [h] at ho
  generalize hr : some (-2 : ℤ) = r at ho
  cases ho with
  | quiet => exact absurd hr (by simp)
  | start h0 => exact h0
  | token _ _ hr' =>
    have := Option.some.inj hr
    omega
  | finished => exact absurd hr (by simp)

theorem step_started {c : DecoderClass} (hc : c.isMultiTone = true) {g : Globals F} {frame : ℕ → F} {C : Core F}
    (h : (step c g frame C).1 = some (-2)) : Started c (step c g frame C).2 := by
  have h0 := idle_of_start h
  unfold step at h ⊢
  rw [if_pos h0] at h ⊢
  rcases hA : C.AnalyzeStartTokens c frame with ⟨ret, A⟩
  rw [hA] at h
  simp only at h ⊢
  by_cases hs : isStart c ret = true
  · have hmode := begin_mode hA hs
    rw [if_pos hs]
    rw [AnalyzeStartTokens_multiTone hc] at hA
    have hret : ret ≠ 0 := by
      intro h0
      subst h0
      cases c <;> exact absurd hs (by decide)
    obtain ⟨hw, s, B, hlt, rfl, rfl⟩ := searchModes_found (fun h => absurd rfl h) hA hret
    have hlane : tokenLane c (C.begin c (1 + s) (beginMessage s B)) = s := by
      unfold tokenLane
      split
      · rename_i hall
        subst hall
        simp [begin]
      · rename_i hall
        cases c <;> first | exact absurd rfl hall | (simp only [DecoderClass.lanes] at hlt; omega)
    have hanalysis : (C.begin c (1 + s) (beginMessage s B)).analysis = resetConfidence (beginMessage s B) := by
      unfold begin
      simp only [hc, if_true]
    refine ⟨fun hall => ?_, rfl, ?_, ?_, ?_, ?_⟩
    · unfold NextMode at hmode
      rwa [if_pos hall] at hmode
    · rw [hanalysis]
      exact hw
    · rw [hlane, hanalysis]
      simp [beginMessage, setLane, resetConfidence]
    · rw [hanalysis]
      rfl
    · rw [hanalysis]
      rfl
  · rw [if_neg hs] at h
    exact absurd h (by simp)

end Core

namespace Decoder

theorem call_started {g : Globals F} {audioBuffer : ℕ → F} {size : ℕ} {d : Decoder F}
    (hc : d.cls.isMultiTone = true) (h : (d.DecodeAudioBuffer g audioBuffer size).1 = -2) :
    Core.Started d.cls (d.DecodeAudioBuffer g audioBuffer size).2.core := by
  have hfeed := FrameBuffer.feed_rule (Core.step d.cls g)
    (fun r C => r = some (-2) → Core.Started d.cls C) (fun f C _ h => Core.step_started hc h) audioBuffer size d.frames
    d.core (fun h => absurd h (by simp))
  refine hfeed ?_
  have h : (FrameBuffer.feed (Core.step d.cls g) audioBuffer size (d.frames, d.core)).1.getD (-1) = -2 := h
  rcases hr : (FrameBuffer.feed (Core.step d.cls g) audioBuffer size (d.frames, d.core)).1 with _ | r
  · rw [hr] at h
    exact absurd h (by decide)
  · rw [hr] at h
    exact congrArg some h

end Decoder

namespace Core

open Analysis

/-! ## Runs between the start tokens and the end -/

/-- What happens to the state of the analysis: a frame, or a poll, which only empties the vector. -/
inductive Move (F : Type)
  | frame (g : Globals F) (mAnalBufferFloat : ℕ → F)
  | poll

def move (c : DecoderClass) (m : Move F) (C : Core F) : Option (Option ℤ × Core F) :=
  match m with
  | .frame g mAnalBufferFloat => some (step c g mAnalBufferFloat C)
  | .poll => some (none, { C with mDecodedValues := [] })

/-- What every frame and every poll keeps holds at the end of a run. -/
theorem move_rule {c : DecoderClass} {C0 C : Core F} {log : List (Move F × Option ℤ)} (h : Run (move c) C0 log C)
    (P : Core F → Prop) (h0 : P C0) (hframe : ∀ g frame C, P C → P (step c g frame C).2)
    (hpoll : ∀ C, P C → P { C with mDecodedValues := [] }) : P C := by
  refine h.rule (fun _ C => P C) h0 ?_
  intro log C1 m r C2 hP hmove
  cases m with
  | frame g frame =>
    have hstep : step c g frame C1 = (r, C2) := Option.some.inj hmove
    have hkept := hframe g frame C1 hP
    rwa [hstep] at hkept
  | poll =>
    obtain ⟨-, rfl⟩ := Prod.mk.inj (Option.some.inj hmove)
    exact hpoll C1 hP

/-- The number of frames of a run. -/
def frameCount (log : List (Move F × Option ℤ)) : ℕ := log.countP fun e => match e.1 with
  | .frame .. => true
  | .poll => false

/-- The number of values that the frames of a run returned. -/
def valueCount (log : List (Move F × Option ℤ)) : ℕ := log.countP fun e => e.2.isSome

/-- Every token block that the run consumes votes for the tones of some token. -/
def TokenBlocks (c : DecoderClass) (C0 : Core F) (log : List (Move F × Option ℤ)) : Prop :=
  ∀ l g f r C, l ++ [(.frame g f, r)] <+: log → Run (move c) C0 l C → Consumes c f C →
    IsTokenPair (blockTones c g f C).1 (blockTones c g f C).2

/-- Every token block that the run consumes appends exactly one value and moves the counter on by one. -/
def OneValueEach (c : DecoderClass) (C0 : Core F) (log : List (Move F × Option ℤ)) : Prop :=
  ∀ l g f r C, l ++ [(.frame g f, r)] <+: log → Run (move c) C0 l C → Consumes c f C →
    (step c g f C).2.mDecoding = C.mDecoding + 1 ∧ ∃ v, (step c g f C).2.mDecodedValues = C.mDecodedValues ++ [v]

/-- The first frame, counted from the start tokens, of the block after `k` blocks of half a ring of `N` frames. -/
def blockStart (N k : ℕ) : ℕ := (k * N + 1) / 2

/-- After `m` frames and `k` values, with the ring `A0` at the start tokens: as many blocks as values were consumed,
and the next one begins `blockStart` frames after the start tokens. -/
structure OnTime (c : DecoderClass) (A0 : Analysis F) (m k : ℕ) (C : Core F) : Prop where
  mode : ModeOk c C
  decoding : C.mDecoding = k + 1
  size : C.analysis.mSizeBlockCircularBuffer = A0.mSizeBlockCircularBuffer
  start : C.analysis.mEndStartTokenPosInBlockCircularBuffer = A0.mWritePosInBlockCircularBuffer
  acc : C.analysis.mAccumulatedDecodingFrames = k * A0.mSizeBlockCircularBuffer
  read : (C.analysis.lane (tokenLane c C)).mReadPosInBlockCircularBuffer =
    (A0.mWritePosInBlockCircularBuffer + blockStart A0.mSizeBlockCircularBuffer k) % A0.mSizeBlockCircularBuffer
  write : C.analysis.mWritePosInBlockCircularBuffer =
    (A0.mWritePosInBlockCircularBuffer + m) % A0.mSizeBlockCircularBuffer
  begun : 2 ≤ A0.mSizeBlockCircularBuffer → blockStart A0.mSizeBlockCircularBuffer k ≤ m + 1
  pending : 2 ≤ A0.mSizeBlockCircularBuffer → k < 18 →
    m < blockStart A0.mSizeBlockCircularBuffer k + A0.mSizeBlockCircularBuffer / 2

omit [Floats F D] [Doubles D] [CFFTOoura F] in
theorem Started.onTime {c : DecoderClass} {C : Core F} (h : Started c C) : OnTime c C.analysis 0 0 C where
  mode := h.mode
  decoding := by rw [h.decoding]; rfl
  size := rfl
  start := h.start
  acc := by rw [h.acc, Nat.zero_mul]
  read := by
    rw [blockStart, Nat.zero_mul, h.read]
    exact h.wrapped.symm
  write := h.wrapped.symm
  begun _ := by simp [blockStart]
  pending h2 _ := by
    rw [blockStart, Nat.zero_mul]
    omega

omit [Doubles D] in
/-- How full the ring is once the next frame is stored. -/
theorem OnTime.filled {c : DecoderClass} {A0 : Analysis F} {m k : ℕ} {C : Core F} (h : OnTime c A0 m k C) (hk : k < 18)
    (h2 : 2 ≤ A0.mSizeBlockCircularBuffer) (frame : ℕ → F) :
    (stored frame C).getSizeFilledBlockCircularBuffer (tokenLane c C) =
      m + 1 - blockStart A0.mSizeBlockCircularBuffer k := by
  have h1 := h.begun h2
  have h3 := h.pending h2 hk
  have hw : (stored frame C).mWritePosInBlockCircularBuffer =
      (A0.mWritePosInBlockCircularBuffer + (m + 1)) % A0.mSizeBlockCircularBuffer := by
    show (C.analysis.mWritePosInBlockCircularBuffer + 1) % C.analysis.mSizeBlockCircularBuffer = _
    rw [h.write, h.size, Nat.mod_add_mod, Nat.add_assoc]
  have hr : ((stored frame C).lane (tokenLane c C)).mReadPosInBlockCircularBuffer =
      (A0.mWritePosInBlockCircularBuffer + blockStart A0.mSizeBlockCircularBuffer k) % A0.mSizeBlockCircularBuffer :=
    h.read
  have hn : (stored frame C).mSizeBlockCircularBuffer = A0.mSizeBlockCircularBuffer := h.size
  rw [getSizeFilledBlockCircularBuffer, hn, hr, hw, filled_mod (by omega) (by omega)]
  omega

omit [Doubles D] in
theorem OnTime.stored_write {c : DecoderClass} {A0 : Analysis F} {m k : ℕ} {C : Core F} (h : OnTime c A0 m k C)
    (frame : ℕ → F) : (stored frame C).mWritePosInBlockCircularBuffer =
      (A0.mWritePosInBlockCircularBuffer + (m + 1)) % A0.mSizeBlockCircularBuffer := by
  show (C.analysis.mWritePosInBlockCircularBuffer + 1) % C.analysis.mSizeBlockCircularBuffer = _
  rw [h.write, h.size, Nat.mod_add_mod, Nat.add_assoc]

/-- A frame that does not complete a block is stored. -/
theorem OnTime.stores {c : DecoderClass} (hc : c.isMultiTone = true) {A0 : Analysis F} {m k : ℕ} {C : Core F}
    (h : OnTime c A0 m k C) (hk : k < 18) (g : Globals F) (frame : ℕ → F) (hcons : ¬ Consumes c frame C) :
    (Core.step c g frame C).1 = none ∧ OnTime c A0 (m + 1) k (Core.step c g frame C).2 := by
  have hd := h.decoding
  have hn : (stored frame C).mSizeBlockCircularBuffer = A0.mSizeBlockCircularBuffer := h.size
  have hstep := step_stores hc g frame C (by omega) (by omega) hcons
  rw [hstep]
  refine ⟨rfl, h.mode, hd, h.size, h.start, h.acc, h.read, h.stored_write frame, fun h2 => ?_, fun h2 _ => ?_⟩
  · have := h.begun h2
    omega
  · have hlt : ¬ m + 1 - blockStart A0.mSizeBlockCircularBuffer k ≥ A0.mSizeBlockCircularBuffer / 2 := fun hf =>
      hcons ⟨⟨by omega, by omega⟩, by rw [h.filled hk h2, hn]; exact hf⟩
    have := h.begun h2
    omega

/-- A frame that completes a block for the tones of a token: one value, and the next block begins. -/
theorem OnTime.consumes {c : DecoderClass} (hc : c.isMultiTone = true) {A0 : Analysis F} {m k : ℕ} {C : Core F}
    (h : OnTime c A0 m k C) (hk : k < 18) (g : Globals F) (frame : ℕ → F) (hcons : Consumes c frame C)
    (htoken : IsTokenPair (blockTones c g frame C).1 (blockTones c g frame C).2) :
    (Core.step c g frame C).1 =
        some (idxToken (tokenMode c C) (blockTones c g frame C).1 (blockTones c g frame C).2) ∧
      OnTime c A0 (m + 1) (k + 1) (Core.step c g frame C).2 ∧
      (2 ≤ A0.mSizeBlockCircularBuffer →
        m + 1 = blockStart A0.mSizeBlockCircularBuffer k + A0.mSizeBlockCircularBuffer / 2) := by
  have hn : (stored frame C).mSizeBlockCircularBuffer = A0.mSizeBlockCircularBuffer := h.size
  obtain ⟨A, hkeep, hstep⟩ := step_consumes hc (g := g) hcons
  rw [if_pos ((idxToken_nonneg (h.mode.range hc) _ _).2 htoken)] at hstep
  have hfull := hcons.2
  rw [hn] at hfull
  have hacc : (consumeBlock (tokenLane c C) A).mAccumulatedDecodingFrames =
      (k + 1) * A0.mSizeBlockCircularBuffer := by
    show A.mAccumulatedDecodingFrames + A.mSizeBlockCircularBuffer = _
    rw [hkeep.acc, hkeep.size, hn, Nat.succ_mul, ← h.acc]
    rfl
  have hnext : blockStart A0.mSizeBlockCircularBuffer (k + 1) =
      (k * A0.mSizeBlockCircularBuffer + A0.mSizeBlockCircularBuffer + 1) / 2 := by
    rw [blockStart, Nat.succ_mul]
  have hblock : blockStart A0.mSizeBlockCircularBuffer k = (k * A0.mSizeBlockCircularBuffer + 1) / 2 := rfl
  have hon : 2 ≤ A0.mSizeBlockCircularBuffer →
      m + 1 = blockStart A0.mSizeBlockCircularBuffer k + A0.mSizeBlockCircularBuffer / 2 := fun h2 => by
    rw [h.filled hk h2] at hfull
    have h1 := h.begun h2
    have h3 := h.pending h2 hk
    omega
  rw [hstep]
  refine ⟨rfl, ?_, hon⟩
  exact
  { mode := h.mode
    decoding := by
      show C.mDecoding + 1 = _
      rw [h.decoding]
      push_cast
      rfl
    size := hkeep.size.trans hn
    start := hkeep.start.trans h.start
    acc := hacc
    read := by
      have hlane : ((consumeBlock (tokenLane c C) A).lane (tokenLane c C)).mReadPosInBlockCircularBuffer =
          (A.mEndStartTokenPosInBlockCircularBuffer +
            ((consumeBlock (tokenLane c C) A).mAccumulatedDecodingFrames + 1) / 2) % A.mSizeBlockCircularBuffer := by
        simp [consumeBlock, setLane]
      refine hlane.trans ?_
      rw [hacc, hkeep.size, hn, hkeep.start]
      exact congrArg (fun s => (s + _) % _) h.start
    write := hkeep.write.trans (h.stored_write frame)
    begun := fun h2 => by
      have := hon h2
      rw [hnext]
      omega
    pending := fun h2 _ => by
      have := hon h2
      rw [hnext]
      omega }

/-- A frame of a run whose blocks all vote for tokens. -/
theorem OnTime.step {c : DecoderClass} (hc : c.isMultiTone = true) {A0 : Analysis F} {m k : ℕ} {C : Core F}
    (h : OnTime c A0 m k C) (hk : k < 18) (g : Globals F) (frame : ℕ → F)
    (htoken : Consumes c frame C → IsTokenPair (blockTones c g frame C).1 (blockTones c g frame C).2) :
    ((Core.step c g frame C).1 = none ∧ OnTime c A0 (m + 1) k (Core.step c g frame C).2) ∨
      ((Core.step c g frame C).1 =
        some (idxToken (tokenMode c C) (blockTones c g frame C).1 (blockTones c g frame C).2) ∧
      OnTime c A0 (m + 1) (k + 1) (Core.step c g frame C).2 ∧
      (2 ≤ A0.mSizeBlockCircularBuffer →
        m + 1 = blockStart A0.mSizeBlockCircularBuffer k + A0.mSizeBlockCircularBuffer / 2)) := by
  by_cases hcons : Consumes c frame C
  · exact Or.inr (h.consumes hc hk g frame hcons (htoken hcons))
  · exact Or.inl (h.stores hc hk g frame hcons)

theorem step_finished (c : DecoderClass) (g : Globals F) (frame : ℕ → F) {C : Core F} (h : 18 < C.mDecoding) :
    Core.step c g frame C = (some (-3), C.finish c) := by
  unfold Core.step
  rw [if_neg (by omega), if_neg (fun h' => absurd (show C.mDecoding ≤ 18 from h'.2) (by omega)),
    if_pos (show C.mDecoding > (numMessageTokens : ℤ) from h)]

/-- The run of a message whose blocks all vote for tokens. -/
theorem run_onTime {c : DecoderClass} (hc : c.isMultiTone = true) {C0 C : Core F} (h0 : Started c C0)
    {log : List (Move F × Option ℤ)} (h : Run (move c) C0 log C) (hopen : some (-3) ∉ log.map Prod.snd)
    (ht : TokenBlocks c C0 log) : OnTime c C0.analysis (frameCount log) (valueCount log) C ∧ valueCount log ≤ 18 := by
  refine h.rule_run (fun log C => some (-3) ∉ log.map Prod.snd → TokenBlocks c C0 log →
    OnTime c C0.analysis (frameCount log) (valueCount log) C ∧ valueCount log ≤ 18)
    (fun _ _ => ⟨h0.onTime, Nat.zero_le _⟩) ?_ hopen ht
  intro log C m r C' hrun ih hmove hopen ht
  have hpre : log <+: log ++ [(m, r)] := List.prefix_append _ _
  rw [List.map_append, List.mem_append, not_or] at hopen
  obtain ⟨hon, hle⟩ := ih hopen.1 fun l g f r C hl => ht l g f r C (hl.trans hpre)
  cases m with
  | poll =>
    obtain ⟨rfl, rfl⟩ := Prod.mk.inj (Option.some.inj hmove)
    simp only [frameCount, valueCount, List.countP_append, List.countP_singleton] at hon hle ⊢
    exact ⟨⟨hon.mode, hon.decoding, hon.size, hon.start, hon.acc, hon.read, hon.write, hon.begun, hon.pending⟩, hle⟩
  | frame g f =>
    have hmove : Core.step c g f C = (r, C') := Option.some.inj hmove
    have hr : some (-3) ≠ r := fun h => hopen.2 (by simp [h])
    have hk : valueCount log < 18 := by
      by_contra hk
      have hd := hon.decoding
      have hfin := step_finished c g f (C := C) (by omega)
      exact hr (congrArg Prod.fst (hfin.symm.trans hmove))
    have hf : frameCount (log ++ [(.frame g f, r)]) = frameCount log + 1 := by simp [frameCount]
    have hv : valueCount (log ++ [(.frame g f, r)]) = valueCount log + if r.isSome then 1 else 0 := by simp [valueCount]
    have hstep := hon.step hc hk g f fun hcons =>
      ht log g f r C (List.prefix_refl _) hrun hcons
    rw [hmove] at hstep
    rw [hf, hv]
    rcases hstep with ⟨rfl, hon'⟩ | ⟨rfl, hon', -⟩
    · exact ⟨hon', hle⟩
    · exact ⟨hon', hk⟩

/-- Every state that a run passes through is one that the decoder of all modes can be in. -/
theorem run_modeOk {c : DecoderClass} {C0 C : Core F} (h0 : ModeOk c C0) {log : List (Move F × Option ℤ)}
    (h : Run (move c) C0 log C) : ModeOk c C := by
  refine move_rule h (ModeOk c) h0 (fun g frame C hm => ?_) fun C hm => hm
  have ho := step_outcome c g frame C
  rcases hs : step c g frame C with ⟨r, C'⟩
  rw [hs] at ho
  intro hall
  cases ho with
  | quiet _ hmode => rw [hmode]; exact hm hall
  | start _ _ hmode =>
    unfold NextMode at hmode
    rwa [if_pos hall] at hmode
  | token _ _ _ _ hmode => rw [hmode]; exact hm hall
  | finished _ _ hmode => rw [hmode]; exact hm hall

end Core

namespace Core

/-! ## Runs of calls -/

/-- The loop over the frames of a call, as a run. -/
theorem frameLoop_moves (c : DecoderClass) (g : Globals F) : ∀ (fuel : ℕ) (B : FrameBuffer F) (C : Core F),
    ∃ moves, Run (move c) C moves (FrameBuffer.frameLoop (step c g) fuel (B, C)).2.2 ∧
      moves.filterMap Prod.snd = (FrameBuffer.frameLoop (step c g) fuel (B, C)).1.toList
  | 0, _, _ => ⟨[], .nil, rfl⟩
  | fuel + 1, B, C => by
    by_cases h : B.getSizeFilledFrameCircularBuffer ≥ B.mWindowSize
    · rcases hst : step c g B.nextFrame.mAnalBufferFloat C with ⟨r, C'⟩
      have hmove : Run (move c) C ([] ++ [(.frame g B.nextFrame.mAnalBufferFloat, r)]) C' :=
        .call .nil (congrArg some hst)
      cases r with
      | some r =>
        rw [FrameBuffer.frameLoop_event h hst]
        exact ⟨_, hmove, rfl⟩
      | none =>
        rw [FrameBuffer.frameLoop_next h hst]
        obtain ⟨moves, hrun, hvalues⟩ := frameLoop_moves c g fuel B.nextFrame C'
        exact ⟨_, hmove.append hrun, hvalues⟩
    · rw [FrameBuffer.frameLoop_short h]
      exact ⟨[], .nil, rfl⟩

/-- What a run of calls does to the analysis is a run of frames and polls with the same values. -/
theorem run_moves {d d' : Decoder F} {log : List (Decoder.Call F × Decoder.Answer)} (h : Run Decoder.call d log d') :
    ∃ moves, Run (move d.cls) d.core moves d'.core ∧ moves.filterMap Prod.snd = Decoder.events log := by
  have hinv : d'.cls = d.cls ∧ ∃ moves, Run (move d'.cls) d.core moves d'.core ∧
      moves.filterMap Prod.snd = Decoder.events log := by
    refine h.rule (fun log d' => d'.cls = d.cls ∧ ∃ moves, Run (move d'.cls) d.core moves d'.core ∧
      moves.filterMap Prod.snd = Decoder.events log) ⟨rfl, [], .nil, rfl⟩ ?_
    rintro log d1 call a d2 ⟨hcls, moves, hrun, hvalues⟩ hcall
    cases call with
    | DecodeAudioBuffer g audioBuffer size =>
      obtain ⟨rfl, rfl⟩ := Prod.mk.inj (Option.some.inj hcall)
      have ho := Decoder.feed_outcome d1.cls g audioBuffer size d1.frames d1.core
      obtain ⟨moves', hrun', hvalues'⟩ := frameLoop_moves d1.cls g
        (d1.frames.write audioBuffer size).getSizeFilledFrameCircularBuffer (d1.frames.write audioBuffer size) d1.core
      refine ⟨hcls, moves ++ moves', hrun.append hrun', ?_⟩
      rw [List.filterMap_append, hvalues, hvalues']
      exact (Decoder.events_event ho.ne_neg_one _ _).symm
    | GetDecodedData =>
      obtain ⟨⟨ret, s, e⟩, he, hx⟩ := Option.map_eq_some_iff.1 hcall
      obtain ⟨rfl, rfl⟩ := Prod.mk.inj hx
      obtain ⟨-, -, hcls', -, hcore⟩ := Decoder.getDecodedData_inv he
      refine ⟨hcls'.trans hcls, moves ++ [(.poll, none)], ?_, ?_⟩
      · rw [hcls', hcore]
        exact .call hrun rfl
      · rw [Decoder.events_data, List.filterMap_append, hvalues]
        exact List.append_nil _
  obtain ⟨hcls, hmoves⟩ := hinv
  rwa [hcls] at hmoves

end Core

end Undertone
