import Undertone.Search

/-!
# The decoder of all modes in the audible mode

Mode 0 of the decoder of all modes is the audible decoder. As long as the windows of the other two modes are not full,
every frame does to mode 0 what it does to the audible decoder, and returns the same (`Follows.step`).
-/

namespace Undertone

open CountedLoop RingBuffer Globals

namespace Analysis

variable {F D : Type} [Doubles D] [Floats F D] [CFFTOoura F]

/-! ## Messages keep the notes -/

section Notes

omit [Doubles D] [Floats F D] [CFFTOoura F]

/-- A lane that changes only elsewhere. -/
theorem setLane_notes {A : Analysis F} {t : ℕ} {f : Lane F → Lane F} (hf : ∀ L, notes (f L) = notes L) (s : ℕ) :
    notes ((A.setLane t f).lane s) = notes (A.lane s) := by
  by_cases hs : s = t
  · subst hs
    simp only [setLane, Function.update_self]
    exact hf _
  · simp only [setLane, Function.update_of_ne hs]

theorem setRead_notes (A : Analysis F) (t s r : ℕ) :
    notes ((A.setLane t fun L => { L with mReadPosInBlockCircularBuffer := r }).lane s) = notes (A.lane s) := by
  apply setLane_notes
  intro L
  rfl

variable [Doubles D] [Floats F D]

omit [Doubles D] in
theorem noteTones_notes (t k : ℕ) (A : Analysis F) (s : ℕ) : notes ((noteTones t k A).lane s) = notes (A.lane s) := by
  by_cases hs : s = t
  · subst hs
    simp only [noteTones, setLane, Function.update_self]
    rfl
  · simp only [noteTones, setLane, Function.update_of_ne hs]

theorem ComputeStats_notes (g : Globals F) (mode mDecoding : ℤ) (t : ℕ) (A : Analysis F) (s : ℕ) :
    notes ((ComputeStats g mode mDecoding t A).lane s) = notes (A.lane s) := by
  refine forUp_rule (P := fun _ (A' : Analysis F) => notes (A'.lane s) = notes (A.lane s)) (Nat.zero_le _) rfl ?_
  intro k A' _ _ h
  exact (noteTones_notes t k (frameStats g mode mDecoding (A.energyBlock t) t k A') s).trans h

omit [Doubles D] in
theorem noteTokens_notes (mode : ℤ) (t : ℕ) (A : Analysis F) (s : ℕ) :
    notes ((noteTokens mode t A).lane s) = notes (A.lane s) := by
  refine forUp_rule (P := fun _ (A' : Analysis F) => notes (A'.lane s) = notes (A.lane s)) (Nat.zero_le _) rfl ?_
  intro k A' _ _ h
  refine Eq.trans ?_ h
  apply setLane_notes
  intro L
  rfl

theorem decodeBlock_notes (g : Globals F) (mode mDecoding : ℤ) (t : ℕ) (A : Analysis F) (s : ℕ) :
    notes ((decodeBlock g mode mDecoding t A).2.lane s) = notes (A.lane s) := by
  have hstats := (noteTokens_notes mode t (ComputeStats g mode mDecoding t A) s).trans
    (ComputeStats_notes g mode mDecoding t A s)
  exact (setRead_notes (noteTokens mode t (ComputeStats g mode mDecoding t A)) t s _).trans hstats

end Notes

/-- A frame of a message notes nothing. -/
theorem AnalyzeToken_notes (g : Globals F) (mode mDecoding : ℤ) (t : ℕ) (frame : ℕ → F) (A : Analysis F) (s : ℕ) :
    notes ((A.AnalyzeToken g mode mDecoding t frame).2.lane s) = notes (A.lane s) := by
  show notes ((if _ then _ else _ : ℤ × Analysis F).2.lane s) = _
  split
  · exact decodeBlock_notes g mode mDecoding t (storeSpectrum frame A).advanceWritePos s
  · rfl

/-! ## Mode 0 -/

/-- Mode 0 of `A'` is the only mode of `A`, and the other modes of `A'` read from the beginning of the ring. -/
structure Follows (A A' : Analysis F) : Prop where
  spectral : A'.mSpectralAnalysis = A.mSpectralAnalysis
  mag : A'.mBlockSpecMag = A.mBlockSpecMag
  write : A'.mWritePosInBlockCircularBuffer = A.mWritePosInBlockCircularBuffer
  size : A'.mSizeBlockCircularBuffer = A.mSizeBlockCircularBuffer
  tolerance : A'.mnToleranceFrames = A.mnToleranceFrames
  start : A'.mEndStartTokenPosInBlockCircularBuffer = A.mEndStartTokenPosInBlockCircularBuffer
  acc : A'.mAccumulatedDecodingFrames = A.mAccumulatedDecodingFrames
  read : (A'.lane 0).mReadPosInBlockCircularBuffer = (A.lane 0).mReadPosInBlockCircularBuffer
  bins : (A'.lane 0).mFreqsBins = (A.lane 0).mFreqsBins
  beginBin : (A'.lane 0).mBeginBin = (A.lane 0).mBeginBin
  endBin : (A'.lane 0).mEndBin = (A.lane 0).mEndBin
  noted : notes (A'.lane 0) = notes (A.lane 0)
  others : ∀ t, t ≠ 0 → (A'.lane t).mReadPosInBlockCircularBuffer = 0

section Follows

variable {A A' B B' : Analysis F}

omit [Doubles D] [Floats F D] [CFFTOoura F] in
theorem Follows.blockPos (h : Follows A A') (i : ℕ) : A'.blockPos 0 i = A.blockPos 0 i := by
  rw [Analysis.blockPos, Analysis.blockPos, h.read, h.size]

omit [Doubles D] [Floats F D] [CFFTOoura F] in
theorem Follows.filled (h : Follows A A') :
    A'.getSizeFilledBlockCircularBuffer 0 = A.getSizeFilledBlockCircularBuffer 0 := by
  rw [getSizeFilledBlockCircularBuffer, getSizeFilledBlockCircularBuffer, h.size, h.read, h.write]

omit [Doubles D] [Floats F D] [CFFTOoura F] in
/-- The same read position on both sides. -/
theorem Follows.setRead (h : Follows A A') (r : ℕ) :
    Follows (A.setLane 0 fun L => { L with mReadPosInBlockCircularBuffer := r })
      (A'.setLane 0 fun L => { L with mReadPosInBlockCircularBuffer := r }) := by
  refine ⟨h.spectral, h.mag, h.write, h.size, h.tolerance, h.start, h.acc, ?_, ?_, ?_, ?_, ?_, fun t ht => ?_⟩
  · simp only [setLane, Function.update_self]
  · simp only [setLane, Function.update_self, h.bins]
  · simp only [setLane, Function.update_self, h.beginBin]
  · simp only [setLane, Function.update_self, h.endBin]
  · exact (setRead_notes A' 0 0 r).trans (h.noted.trans (setRead_notes A 0 0 r).symm)
  · simp only [setLane, Function.update_of_ne ht]
    exact h.others t ht

omit [Doubles D] [Floats F D] [CFFTOoura F] in
theorem Follows.advanceWritePos (h : Follows A A') : Follows A.advanceWritePos A'.advanceWritePos := by
  refine ⟨h.spectral, h.mag, ?_, h.size, h.tolerance, h.start, h.acc, h.read, h.bins, h.beginBin, h.endBin, h.noted,
    h.others⟩
  simp only [Analysis.advanceWritePos, h.write, h.size]

omit [Doubles D] in
theorem Follows.store (h : Follows A A') (frame : ℕ → F) :
    Follows (storeSpectrum frame A) (storeSpectrum frame A') := by
  refine ⟨?_, ?_, h.write, h.size, h.tolerance, h.start, h.acc, h.read, h.bins, h.beginBin, h.endBin, h.noted,
    h.others⟩
  · simp only [storeSpectrum, h.spectral]
  · simp only [storeSpectrum, h.spectral, h.mag, h.write, h.size]

/-! ## The search -/

omit [CFFTOoura F] in
/-- A mode ranks the tones of a frame: of the other modes it changes nothing. -/
theorem rankTones_lane (t s : ℕ) (A : Analysis F) :
    ((rankTones t A).lane s).mReadPosInBlockCircularBuffer = (A.lane s).mReadPosInBlockCircularBuffer ∧
      ((rankTones t A).lane s).mFreqsBins = (A.lane s).mFreqsBins ∧
      ((rankTones t A).lane s).mBeginBin = (A.lane s).mBeginBin ∧
      ((rankTones t A).lane s).mEndBin = (A.lane s).mEndBin ∧
      (s ≠ t → notes ((rankTones t A).lane s) = notes (A.lane s)) := by
  by_cases hs : s = t
  · subst hs
    simp only [rankTones, setLane, Function.update_self]
    exact ⟨rfl, rfl, rfl, rfl, fun h => absurd rfl h⟩
  · simp only [rankTones, setLane, Function.update_of_ne hs]
    exact ⟨rfl, rfl, rfl, rfl, fun _ => rfl⟩

omit [CFFTOoura F] in
theorem Follows.rank (h : Follows A A') : Follows (rankTones 0 A) (rankTones 0 A') := by
  obtain ⟨hread, hbins, hbegin, hend, -⟩ := rankTones_lane 0 0 A
  obtain ⟨hread', hbins', hbegin', hend', -⟩ := rankTones_lane 0 0 A'
  refine ⟨h.spectral, h.mag, h.write, h.size, h.tolerance, h.start, h.acc, ?_, ?_, ?_, ?_, ?_, fun t ht => ?_⟩
  · rw [hread, hread', h.read]
  · rw [hbins, hbins', h.bins]
  · rw [hbegin, hbegin', h.beginBin]
  · rw [hend, hend', h.endBin]
  · rw [rankTones_notes, rankTones_notes, h.size, h.noted, h.write, h.spectral,
      startTones_congr (fun i _ => congrFun h.bins i) h.beginBin h.endBin]
  · exact (rankTones_lane 0 t A').1.trans (h.others t ht)

omit [CFFTOoura F] in
theorem Follows.searchLoop : ∀ (fuel : ℕ) {A A' : Analysis F}, Follows A A' →
    (searchLoop startFound 0 fuel A').1 = (searchLoop startFound 0 fuel A).1 ∧
      Follows (searchLoop startFound 0 fuel A).2 (searchLoop startFound 0 fuel A').2
  | 0, _, _, h => ⟨rfl, h⟩
  | fuel + 1, A, A', h => by
    have hfound : startFound 0 A' = startFound 0 A := by
      refine Bool.eq_iff_iff.2 ((startFound_iff 0 A').trans (Iff.trans ?_ (startFound_iff 0 A).symm))
      rw [h.size, h.tolerance]
      refine Opens.congr fun i _ => ?_
      rw [h.noted, h.blockPos]
    have hbegin : Follows (beginMessage 0 A) (beginMessage 0 A') := by
      have hread := h.setRead A.mWritePosInBlockCircularBuffer
      rw [beginMessage, beginMessage, h.write]
      exact ⟨hread.spectral, hread.mag, hread.write, hread.size, hread.tolerance, rfl, rfl, hread.read, hread.bins,
        hread.beginBin, hread.endBin, hread.noted, hread.others⟩
    have hnext : Follows (advanceReadPos 0 A) (advanceReadPos 0 A') := by
      have hpos : ∀ B : Analysis F, advanceReadPos 0 B = B.setLane 0 fun L => { L with
          mReadPosInBlockCircularBuffer :=
            ((B.lane 0).mReadPosInBlockCircularBuffer + 1) % B.mSizeBlockCircularBuffer } :=
        fun _ => rfl
      rw [hpos, hpos, h.read, h.size]
      exact h.setRead _
    unfold Analysis.searchLoop
    rw [h.filled, h.size, hfound]
    split
    · split
      · exact ⟨rfl, hbegin⟩
      · exact hnext.searchLoop fuel
    · exact ⟨rfl, h⟩

omit [CFFTOoura F] in
/-- A mode other than 0 whose window is not full with this frame. -/
theorem Follows.other (h : Follows A A') {t : ℕ} (ht : t ≠ 0)
    (hshort : A.mWritePosInBlockCircularBuffer + 1 < A.mSizeBlockCircularBuffer) :
    (searchMode t A').1 = false ∧ Follows A (searchMode t A').2 := by
  have hlook : Follows A (rankTones t A') := by
    obtain ⟨hread, hbins, hbegin, hend, hnotes⟩ := rankTones_lane t 0 A'
    exact ⟨h.spectral, h.mag, h.write, h.size, h.tolerance, h.start, h.acc, hread.trans h.read, hbins.trans h.bins,
      hbegin.trans h.beginBin, hend.trans h.endBin, (hnotes ht.symm).trans h.noted,
      fun s hs => (rankTones_lane t s A').1.trans (h.others s hs)⟩
  have hloop : searchMode t A' = (false, rankTones t A') := by
    rw [searchMode_eq, looking, if_neg ht]
    apply searchLoop_short
    rw [getSizeFilledBlockCircularBuffer, hlook.size, hlook.write, hlook.others t ht, RingBuffer.filled]
    simp
    omega
  rw [hloop]
  exact ⟨rfl, hlook⟩

/-- A frame of a search, where the windows of the other modes are not full if mode 0 finds nothing. -/
theorem Follows.search (h : Follows A A') (frame : ℕ → F)
    (hshort : (AnalyzeStartTokens 1 frame A).1 = 0 →
      (A.mWritePosInBlockCircularBuffer + 1) % A.mSizeBlockCircularBuffer + 1 < A.mSizeBlockCircularBuffer) :
    (AnalyzeStartTokens 3 frame A').1 = (AnalyzeStartTokens 1 frame A).1 ∧
      Follows (AnalyzeStartTokens 1 frame A).2 (AnalyzeStartTokens 3 frame A').2 := by
  have hlook : Follows (looking 0 (storeSpectrum frame A)) (looking 0 (storeSpectrum frame A')) :=
    (h.store frame).rank.advanceWritePos
  have hmode := hlook.searchLoop (looking 0 (storeSpectrum frame A)).mSizeBlockCircularBuffer
  have hmode' : searchMode 0 (storeSpectrum frame A') =
      Analysis.searchLoop startFound 0 (looking 0 (storeSpectrum frame A)).mSizeBlockCircularBuffer
        (looking 0 (storeSpectrum frame A')) := by
    rw [searchMode_eq, hlook.size]
  rw [← hmode', ← searchMode_eq] at hmode
  unfold AnalyzeStartTokens at hshort ⊢
  unfold searchModes at hshort ⊢
  rcases hs : searchMode 0 (storeSpectrum frame A) with ⟨found, B⟩
  rcases hs' : searchMode 0 (storeSpectrum frame A') with ⟨found', B'⟩
  rw [hs] at hshort
  rw [hs, hs'] at hmode
  obtain ⟨hfound, hB⟩ := hmode
  have hfound : found' = found := hfound
  subst hfound
  cases found' with
  | true => exact ⟨rfl, hB⟩
  | false =>
    -- the other two modes
    have hmissed : (Analysis.searchLoop startFound 0 (looking 0 (storeSpectrum frame A)).mSizeBlockCircularBuffer
        (looking 0 (storeSpectrum frame A))).1 = false := congrArg Prod.fst hs
    obtain ⟨hsize, hwrite, -⟩ := searchLoop_missed hmissed
    rw [← searchMode_eq, hs] at hsize hwrite
    have hshort : B.mWritePosInBlockCircularBuffer + 1 < B.mSizeBlockCircularBuffer := by
      rw [hwrite, hsize]
      exact hshort rfl
    obtain ⟨h1, hB1⟩ := hB.other (t := 1) (by decide) hshort
    obtain ⟨h2, hB2⟩ := hB1.other (t := 2) (by decide) hshort
    have hmodes : searchModes 2 1 B' = (0, (searchMode 2 (searchMode 1 B').2).2) := by
      simp only [searchModes, h1, h2]
      rfl
    show (searchModes 2 1 B').1 = 0 ∧ Follows B (searchModes 2 1 B').2
    rw [hmodes]
    exact ⟨rfl, hB2⟩

/-! ## Messages -/

omit [Doubles D] [Floats F D] [CFFTOoura F] in
theorem Follows.consumeBlock (h : Follows A A') : Follows (consumeBlock 0 A) (consumeBlock 0 A') := by
  have hread := h.setRead ((A.mEndStartTokenPosInBlockCircularBuffer +
    (A.mAccumulatedDecodingFrames + A.mSizeBlockCircularBuffer + 1) / 2) % A.mSizeBlockCircularBuffer)
  simp only [Analysis.consumeBlock, h.start, h.acc, h.size]
  exact ⟨hread.spectral, hread.mag, hread.write, hread.size, hread.tolerance, hread.start, rfl, hread.read, hread.bins,
    hread.beginBin, hread.endBin, hread.noted, hread.others⟩

omit [CFFTOoura F] in
theorem Follows.votedTones (h : Follows A A') (g : Globals F) (mode mDecoding : ℤ) :
    votedTones g mode mDecoding A' 0 = votedTones g mode mDecoding A 0 := by
  have henergy : (A'.energyBlock 0 : D) = A.energyBlock 0 := by
    unfold energyBlock
    simp only [h.size, h.beginBin, h.endBin, h.mag, h.blockPos]
  have hsum : ∀ k i, (toneSum g mode mDecoding A' 0 k i : D) = toneSum g mode mDecoding A 0 k i := fun k i => by
    unfold toneSum evalToneBin
    simp only [h.bins, h.mag, h.blockPos]
  exact SameBlock.votedTones ⟨h.size, by rw [h.spectral], henergy, fun k _ i _ => hsum k i⟩

omit [CFFTOoura F] in
theorem Follows.decodeBlock (h : Follows A A') (g : Globals F) (mode mDecoding : ℤ) :
    (decodeBlock g mode mDecoding 0 A').1 = (decodeBlock g mode mDecoding 0 A).1 ∧
      Follows (decodeBlock g mode mDecoding 0 A).2 (decodeBlock g mode mDecoding 0 A').2 := by
  refine ⟨by rw [decodeBlock_value, decodeBlock_value, h.votedTones], ?_⟩
  have hnotes := decodeBlock_notes g mode mDecoding 0 A 0
  have hnotes' := decodeBlock_notes g mode mDecoding 0 A' 0
  obtain ⟨B, hB, hA⟩ := decodeBlock_moves g mode mDecoding 0 A
  obtain ⟨B', hB', hA'⟩ := decodeBlock_moves g mode mDecoding 0 A'
  rw [hA] at hnotes
  rw [hA'] at hnotes'
  rw [hA, hA']
  have hnoted : notes (B'.lane 0) = notes (B.lane 0) := by
    have hB0 : notes (B.lane 0) = notes (A.lane 0) := (setRead_notes B 0 0 _).symm.trans hnotes
    have hB0' : notes (B'.lane 0) = notes (A'.lane 0) := (setRead_notes B' 0 0 _).symm.trans hnotes'
    rw [hB0, hB0', h.noted]
  have hfollows : Follows B B' :=
    ⟨by rw [hB'.spectral, hB.spectral, h.spectral], by rw [hB'.mag, hB.mag, h.mag],
      by rw [hB'.write, hB.write, h.write],
      by rw [hB'.size, hB.size, h.size], by rw [hB'.tolerance, hB.tolerance, h.tolerance],
      by rw [hB'.start, hB.start, h.start], by rw [hB'.acc, hB.acc, h.acc], by rw [hB'.read, hB.read, h.read],
      by rw [hB'.bins, hB.bins, h.bins], by rw [hB'.beginBin, hB.beginBin, h.beginBin],
      by rw [hB'.endBin, hB.endBin, h.endBin], hnoted, fun t ht => (hB'.read t).trans (h.others t ht)⟩
  exact hfollows.consumeBlock

theorem Follows.token (h : Follows A A') (g : Globals F) (mode mDecoding : ℤ) (frame : ℕ → F) :
    (A'.AnalyzeToken g mode mDecoding 0 frame).1 = (A.AnalyzeToken g mode mDecoding 0 frame).1 ∧
      Follows (A.AnalyzeToken g mode mDecoding 0 frame).2 (A'.AnalyzeToken g mode mDecoding 0 frame).2 := by
  have hstored := (h.store frame).advanceWritePos
  unfold Analysis.AnalyzeToken
  simp only [hstored.filled, hstored.size]
  split
  · exact hstored.decodeBlock g mode mDecoding
  · exact ⟨rfl, hstored⟩

end Follows

end Analysis

/-! ## Frames -/

namespace Core

variable {F D : Type} [Doubles D] [Floats F D] [CFFTOoura F]

/-- The decoder of all modes does what the audible decoder does. -/
structure Follows (C C' : Core F) : Prop where
  decoding : C'.mDecoding = C.mDecoding
  mode : C.mDecoding ≠ 0 → C'.mDecodingMode = DECODING_MODE_AUDIBLE
  analysis : Analysis.Follows C.analysis C'.analysis

variable {g : Globals F} {frame : ℕ → F} {C C' : Core F}

/-- Every frame returns the same, where the windows of the other modes are not full if mode 0 finds nothing. -/
theorem Follows.step (h : Follows C C')
    (hshort : C.mDecoding = 0 → (C.analysis.AnalyzeStartTokens 1 frame).1 = 0 →
      (C.analysis.mWritePosInBlockCircularBuffer + 1) % C.analysis.mSizeBlockCircularBuffer + 1 <
        C.analysis.mSizeBlockCircularBuffer) :
    (step .AllMultiTone g frame C').1 = (step .AudibleMultiTone g frame C).1 ∧
      Follows (step .AudibleMultiTone g frame C).2 (step .AllMultiTone g frame C').2 := by
  by_cases h0 : C.mDecoding = 0
  · have hrange := Analysis.searchModes_range 1 0 (C.analysis.storeSpectrum frame)
    obtain ⟨hret, hanalysis⟩ := h.analysis.search frame (hshort h0)
    rcases hA : C.analysis.AnalyzeStartTokens 1 frame with ⟨ret, A⟩
    rcases hA' : C'.analysis.AnalyzeStartTokens 3 frame with ⟨ret', A'⟩
    rw [hA, hA'] at hret hanalysis
    rw [show Analysis.searchModes 1 0 (C.analysis.storeSpectrum frame) = (ret, A) from hA] at hrange
    have hret : ret' = ret := hret
    have hanalysis : Analysis.Follows A A' := hanalysis
    subst hret
    have hstep : Core.step .AudibleMultiTone g frame C = if isStart .AudibleMultiTone ret' then
        (some (-2), C.begin .AudibleMultiTone ret' A) else (none, { C with analysis := A }) := by
      unfold Core.step
      rw [if_pos h0, show C.AnalyzeStartTokens .AudibleMultiTone frame = (ret', A) from hA]
    have hstep' : Core.step .AllMultiTone g frame C' = if isStart .AllMultiTone ret' then
        (some (-2), C'.begin .AllMultiTone ret' A') else (none, { C' with analysis := A' }) := by
      unfold Core.step
      rw [if_pos (h.decoding.trans h0), show C'.AnalyzeStartTokens .AllMultiTone frame = (ret', A') from hA']
    have hrange : ret' = 0 ∨ (0 : ℤ) + 1 ≤ ret' ∧ ret' ≤ 0 + 1 := hrange
    rw [hstep, hstep']
    obtain rfl | rfl : ret' = 0 ∨ ret' = 1 := by omega
    · exact ⟨rfl, h.decoding, h.mode, hanalysis⟩
    · exact ⟨rfl, rfl, fun _ => rfl, hanalysis.spectral, hanalysis.mag, hanalysis.write, hanalysis.size,
        hanalysis.tolerance, hanalysis.start, hanalysis.acc, hanalysis.read, hanalysis.bins, hanalysis.beginBin,
        hanalysis.endBin, hanalysis.noted, hanalysis.others⟩
  · have hmode := h.mode h0
    have h0' : C'.mDecoding ≠ 0 := fun hd => h0 (h.decoding.symm.trans hd)
    unfold Core.step
    rw [if_neg h0, if_neg h0', h.decoding]
    by_cases hmessage : C.mDecoding > 0 ∧ C.mDecoding ≤ numMessageTokens
    · rw [if_pos hmessage, if_pos hmessage]
      have htoken := h.analysis.token g DECODING_MODE_AUDIBLE C.mDecoding frame
      have hA' : C'.AnalyzeToken .AllMultiTone g frame =
          C'.analysis.AnalyzeToken g DECODING_MODE_AUDIBLE C.mDecoding 0 frame := by
        rw [AnalyzeToken_multiTone rfl, tokenMode, tokenLane, if_pos rfl, if_pos rfl, hmode, h.decoding]
        rfl
      rw [hA', show C.AnalyzeToken .AudibleMultiTone g frame =
        C.analysis.AnalyzeToken g DECODING_MODE_AUDIBLE C.mDecoding 0 frame from rfl]
      generalize C.analysis.AnalyzeToken g DECODING_MODE_AUDIBLE C.mDecoding 0 frame = res at htoken
      generalize C'.analysis.AnalyzeToken g DECODING_MODE_AUDIBLE C.mDecoding 0 frame = res' at htoken
      obtain ⟨ret, A⟩ := res
      obtain ⟨ret', A'⟩ := res'
      obtain ⟨hret, hanalysis⟩ := htoken
      have hret : ret' = ret := hret
      subst hret
      have hanalysis : Analysis.Follows A A' := hanalysis
      by_cases hvalue : ret' ≥ 0
      · simp only [if_pos hvalue]
        exact ⟨trivial, congrArg (· + 1) h.decoding, fun _ => hmode, hanalysis⟩
      · simp only [if_neg hvalue]
        exact ⟨trivial, rfl, h.mode, hanalysis⟩
    · rw [if_neg hmessage, if_neg hmessage]
      by_cases hend : C.mDecoding > numMessageTokens
      · rw [if_pos hend, if_pos hend]
        have ha := h.analysis
        exact ⟨rfl, rfl, fun _ => hmode, ha.spectral, ha.mag, ha.write, ha.size, ha.tolerance, ha.start, ha.acc,
          ha.read, ha.bins, ha.beginBin, ha.endBin, ha.noted, ha.others⟩
      · rw [if_neg hend, if_neg hend]
        exact ⟨rfl, h⟩

end Core

end Undertone
