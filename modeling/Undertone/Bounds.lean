import Undertone.Spectrum

/-!
# What the buffers of a decoder hold

Every frame of a run, in the arrays of the lengths that the constructors allocate. The rings, the sort, the votes and
the spectra are accessed in range in every run (`run_total`), but `doFFT` windows one sample more than a frame has: the
accesses of a run are in range exactly when it never has a complete frame (`frames_in_bounds_iff`).
-/

namespace Undertone

open CountedLoop BoundedArray Globals

namespace Checked

variable {F D : Type} [Doubles D] [Floats F D] [CFFTOoura F]

/-! ## The search for the start tokens -/

section Search

variable {lanes t : ℕ} {A : Analysis F}

omit [Doubles D] [CFFTOoura F] in
theorem sortTones_eq (lt : F → F → Bool) (size : ℕ) (a : ℕ → F) :
    sortTones lt size a = some (Analysis.sortTones lt size a) := by
  obtain ⟨st, hcopy, rfl⟩ := forUpM_total (a := 0) (b := size) (s := (a, (id : ℕ → ℕ)))
    (g := fun i (st : (ℕ → F) × (ℕ → ℕ)) => do
      let sorted ← put size st.1 i (← get size a i)
      let idx ← put size st.2 i i
      return (sorted, idx)) (fun _ st => st = (a, id)) (Nat.zero_le _) rfl (by
      rintro i _ - hi rfl
      refine ⟨(a, id), ?_, rfl⟩
      refine then_eq (get_cast hi a) ?_
      refine then_eq (put_cast hi a (a i)) ?_
      refine then_eq (put_cast hi id i) ?_
      rw [Function.update_eq_self]
      exact congrArg (fun idx => some (a, idx)) (Function.update_eq_self i id))
  unfold sortTones
  refine then_eq hcopy ?_
  refine forUpM_rule (fun _ _ => True) trivial fun c st _ hc _ => ⟨?_, trivial⟩
  refine forUpM_rule (fun _ _ => True) trivial fun d st _ hd _ => ⟨?_, trivial⟩
  have h0 : d < size := by omega
  have h1 : d + 1 < size := by omega
  refine then_eq (get_cast h0 st.1) ?_
  refine then_eq (get_cast h1 st.1) ?_
  by_cases hlt : lt (st.1 d) (st.1 (d + 1)) = true
  · simp only [hlt, if_true]
    refine then_eq (put_cast h0 _ _) ?_
    refine then_eq (put_cast h1 _ _) ?_
    refine then_eq (get_cast h0 st.2) ?_
    refine then_eq (get_cast h1 st.2) ?_
    refine then_eq (put_cast h0 _ _) ?_
    exact then_eq (put_cast h1 _ _) rfl
  · simp only [hlt]
    rfl

omit [CFFTOoura F] in
theorem rankTones_eq (ht : t < lanes) (hn : 0 < A.mSizeBlockCircularBuffer)
    (h : InSpectrum A.mSpectralAnalysis.mSpecSize (A.lane t) (A.lane t).mFreqsBins) :
    rankTones lanes t A = some (Analysis.rankTones t A) := by
  have hpos : A.mWritePosInBlockCircularBuffer % A.mSizeBlockCircularBuffer < A.mSizeBlockCircularBuffer :=
    Nat.mod_lt _ hn
  unfold rankTones
  refine then_eq (ComputeStatsStartTokens_eq ht h) ?_
  refine then_eq (sortTones_eq Floats.lt Analysis.mNumTones _) ?_
  refine then_eq (get_cast ht A.lane) ?_
  refine then_eq (get_eq (by decide) (by decide) _) ?_
  refine then_eq (put_cast hpos _ _) ?_
  refine then_eq (get_eq (by decide) (by decide) _) ?_
  refine then_eq (put_cast hpos _ _) ?_
  refine then_eq (get_eq (by decide) (by decide) _) ?_
  refine then_eq (put_cast hpos _ _) ?_
  refine then_eq (get_eq (by decide) (by decide) _) ?_
  exact then_eq (put_cast hpos _ _) rfl

omit [CFFTOoura F] in
theorem firstTokenRepetitions_eq (hn : 0 < A.mSizeBlockCircularBuffer) :
    firstTokenRepetitions A (A.lane t) = some (A.firstTokenRepetitions t) := by
  refine forUpM_rule (fun _ _ => True) trivial fun i reps _ _ _ => ⟨?_, trivial⟩
  exact then_eq (get_cast (Nat.mod_lt _ hn) _) rfl

omit [CFFTOoura F] in
theorem secondTokenRepetitions_eq (hn : 0 < A.mSizeBlockCircularBuffer) :
    secondTokenRepetitions A (A.lane t) = some (A.secondTokenRepetitions t) := by
  refine forUpM_rule (fun _ _ => True) trivial fun i reps _ _ _ => ⟨?_, trivial⟩
  refine then_eq (get_cast (Nat.mod_lt _ hn) _) ?_
  show _ = some (if (A.lane t).mBlockEnergyRatiosTokenIdx (A.blockPos t i) = Analysis.idxTonesFrontDoorToken2.1 ∨
    (A.lane t).mBlockEnergyRatiosTokenIdx2 (A.blockPos t i) = Analysis.idxTonesFrontDoorToken2.1
      then reps + 1 else reps)
  by_cases h : (A.lane t).mBlockEnergyRatiosTokenIdx (A.blockPos t i) = Analysis.idxTonesFrontDoorToken2.1
  · rw [if_pos (Or.inl h)]
    exact if_pos h
  · simp only [h, false_or]
    exact (if_neg h).trans (then_eq (get_cast (Nat.mod_lt _ hn) _) rfl)

omit [CFFTOoura F] in
theorem startFound_eq (hn : 0 < A.mSizeBlockCircularBuffer) :
    startFound A (A.lane t) = some (Analysis.startFound t A) := by
  unfold startFound Analysis.startFound
  refine then_eq (firstTokenRepetitions_eq (t := t) hn) ?_
  by_cases h : A.firstTokenRepetitions t ≥ (A.mSizeBlockCircularBuffer / 2 : ℕ) - A.mnToleranceFrames
  · rw [if_pos h, if_pos h]
    exact then_eq (secondTokenRepetitions_eq (t := t) hn) rfl
  · rw [if_neg h, if_neg h]
    rfl

omit [CFFTOoura F] in
theorem searchLoop_eq (ht : t < lanes) : ∀ (fuel : ℕ) (A : Analysis F), 0 < A.mSizeBlockCircularBuffer →
    searchLoop lanes t fuel A = some (Analysis.searchLoop Analysis.startFound t fuel A)
  | 0, _, _ => rfl
  | fuel + 1, A, hn => by
    unfold searchLoop Analysis.searchLoop
    refine then_eq (get_cast ht A.lane) ?_
    by_cases h : (A.getSizeFilledBlockCircularBuffer t : ℤ) ≥ A.mSizeBlockCircularBuffer - 1
    · rw [if_pos h]
      refine (if_pos h).trans (then_eq (startFound_eq (t := t) hn) ?_)
      by_cases hfound : Analysis.startFound t A = true
      · rw [if_pos hfound, if_pos hfound]
        rfl
      · rw [if_neg hfound, if_neg hfound]
        exact searchLoop_eq ht fuel (Analysis.advanceReadPos t A) hn
    · rw [if_neg h]
      exact if_neg h

omit [CFFTOoura F] in
theorem searchMode_eq (ht : t < lanes) (hn : 0 < A.mSizeBlockCircularBuffer)
    (h : InSpectrum A.mSpectralAnalysis.mSpecSize (A.lane t) (A.lane t).mFreqsBins) :
    searchMode lanes t A = some (Analysis.searchMode t A) := by
  unfold searchMode Analysis.searchMode
  refine then_eq (rankTones_eq ht hn h) ?_
  by_cases h0 : t = 0
  · simp only [h0, if_true]
    exact searchLoop_eq (h0 ▸ ht) _ _ hn
  · simp only [h0, if_false]
    exact searchLoop_eq ht _ _ hn

end Search

/-! ## What the handling of frames does not change -/

/-- The settings of the transform, the length of the ring and the bins of the tones. -/
structure SameArrays (A A' : Analysis F) : Prop where
  mode : A'.mSpectralAnalysis.mode = A.mSpectralAnalysis.mode
  fft : A'.mSpectralAnalysis.mFftSize = A.mSpectralAnalysis.mFftSize
  window : A'.mSpectralAnalysis.mWindowSize = A.mSpectralAnalysis.mWindowSize
  factors : A'.mSpectralAnalysis.mWindow = A.mSpectralAnalysis.mWindow
  size : A'.mSizeBlockCircularBuffer = A.mSizeBlockCircularBuffer
  bins : ∀ t, (A'.lane t).mFreqsBins = (A.lane t).mFreqsBins
  beginBin : ∀ t, (A'.lane t).mBeginBin = (A.lane t).mBeginBin
  endBin : ∀ t, (A'.lane t).mEndBin = (A.lane t).mEndBin

section Arrays

omit [Doubles D] [Floats F D] [CFFTOoura F]

variable {A A' A'' : Analysis F}

theorem SameArrays.rfl' : SameArrays A A :=
  ⟨rfl, rfl, rfl, rfl, rfl, fun _ => rfl, fun _ => rfl, fun _ => rfl⟩

theorem SameArrays.trans (h : SameArrays A A') (h' : SameArrays A' A'') : SameArrays A A'' where
  mode := h'.mode.trans h.mode
  fft := h'.fft.trans h.fft
  window := h'.window.trans h.window
  factors := h'.factors.trans h.factors
  size := h'.size.trans h.size
  bins t := (h'.bins t).trans (h.bins t)
  beginBin t := (h'.beginBin t).trans (h.beginBin t)
  endBin t := (h'.endBin t).trans (h.endBin t)

theorem sameArrays_keeps (h : Analysis.KeepsBlock A A') : SameArrays A A' :=
  ⟨congrArg _ h.spectral, congrArg _ h.spectral, congrArg _ h.spectral, congrArg _ h.spectral, h.size, h.bins,
    h.beginBin, h.endBin⟩

theorem sameArrays_setLane (t : ℕ) {f : Lane F → Lane F} (hbins : ∀ L, (f L).mFreqsBins = L.mFreqsBins)
    (hbegin : ∀ L, (f L).mBeginBin = L.mBeginBin) (hend : ∀ L, (f L).mEndBin = L.mEndBin) :
    SameArrays A (A.setLane t f) := by
  have hlane : ∀ s, (A.setLane t f).lane s = A.lane s ∨ (A.setLane t f).lane s = f (A.lane s) := fun s => by
    by_cases hs : s = t
    · subst hs
      exact Or.inr (Function.update_self ..)
    · exact Or.inl (Function.update_of_ne hs ..)
  refine ⟨rfl, rfl, rfl, rfl, rfl, fun s => ?_, fun s => ?_, fun s => ?_⟩
  · rcases hlane s with h | h <;> rw [h]
    exact hbins _
  · rcases hlane s with h | h <;> rw [h]
    exact hbegin _
  · rcases hlane s with h | h <;> rw [h]
    exact hend _

/-- Arrays in which the handling of a frame of `W` samples stays, and bins in the spectrum. -/
structure ArraysFit (W : ℕ) (c : DecoderClass) (g : Globals F) (A : Analysis F) : Prop where
  fft : A.mSpectralAnalysis.mFftSize = W
  window : A.mSpectralAnalysis.mWindowSize = W
  samples : 0 < W
  frames : 0 < A.mSizeBlockCircularBuffer
  spectrum : AllInSpectrum c g A

theorem AllInSpectrum.mono {c : DecoderClass} {g : Globals F} (h : AllInSpectrum c g A) (hsame : SameArrays A A') :
    AllInSpectrum c g A' := by
  have hspec : A'.mSpectralAnalysis.mSpecSize = A.mSpectralAnalysis.mSpecSize := by
    unfold SpectralAnalysis.mSpecSize
    rw [hsame.fft]
  intro t ht
  obtain ⟨hstart, htokens⟩ := h t ht
  have hread : ∀ toneBin : ℕ → ℤ, InSpectrum A.mSpectralAnalysis.mSpecSize (A.lane t) toneBin →
      InSpectrum A'.mSpectralAnalysis.mSpecSize (A'.lane t) toneBin := by
    intro toneBin hin
    unfold InSpectrum ReadBin at hin ⊢
    rwa [hspec, hsame.beginBin, hsame.endBin]
  refine ⟨?_, fun mDecoding => ?_⟩
  · rw [hsame.bins]
    exact hread _ hstart
  · have hbins : Analysis.evalToneBin g (laneMode c t) mDecoding (A'.lane t) =
        Analysis.evalToneBin g (laneMode c t) mDecoding (A.lane t) := by
      unfold Analysis.evalToneBin
      rw [hsame.bins]
    rw [hbins]
    exact hread _ (htokens mDecoding)

theorem ArraysFit.mono {W : ℕ} {c : DecoderClass} {g : Globals F} (h : ArraysFit W c g A) (hsame : SameArrays A A') :
    ArraysFit W c g A' :=
  ⟨hsame.fft.trans h.fft, hsame.window.trans h.window, h.samples, hsame.size ▸ h.frames, h.spectrum.mono hsame⟩

end Arrays

section Searches

variable {W : ℕ} {c : DecoderClass} {g : Globals F} {A : Analysis F}

omit [CFFTOoura F] in
theorem sameArrays_rankTones (t : ℕ) (A : Analysis F) : SameArrays A (Analysis.rankTones t A) := by
  have h : SameArrays A (A.ComputeStatsStartTokens t) :=
    ⟨rfl, rfl, rfl, rfl, rfl, fun _ => rfl, fun _ => rfl, fun _ => rfl⟩
  unfold Analysis.rankTones
  exact h.trans (sameArrays_setLane t (fun _ => rfl) (fun _ => rfl) fun _ => rfl)

omit [Doubles D] [CFFTOoura F] in
theorem sameArrays_searchLoop (found : ℕ → Analysis F → Bool) (t : ℕ) :
    ∀ (fuel : ℕ) (A : Analysis F), SameArrays A (Analysis.searchLoop found t fuel A).2
  | 0, _ => .rfl'
  | fuel + 1, A => by
    unfold Analysis.searchLoop
    split
    · split
      · have h := sameArrays_setLane (A := A) t (f := fun L =>
          { L with mReadPosInBlockCircularBuffer := A.mWritePosInBlockCircularBuffer }) (fun _ => rfl) (fun _ => rfl)
            fun _ => rfl
        exact ⟨h.mode, h.fft, h.window, h.factors, h.size, h.bins, h.beginBin, h.endBin⟩
      · have h : SameArrays A (Analysis.advanceReadPos t A) :=
          sameArrays_setLane t (fun _ => rfl) (fun _ => rfl) fun _ => rfl
        exact h.trans (sameArrays_searchLoop found t fuel _)
    · exact .rfl'

omit [CFFTOoura F] in
theorem sameArrays_searchMode (t : ℕ) (A : Analysis F) : SameArrays A (Analysis.searchMode t A).2 := by
  have h : SameArrays A (if t = 0 then (Analysis.rankTones t A).advanceWritePos else Analysis.rankTones t A) := by
    have hrank := sameArrays_rankTones t A
    split
    · exact ⟨hrank.mode, hrank.fft, hrank.window, hrank.factors, hrank.size, hrank.bins, hrank.beginBin, hrank.endBin⟩
    · exact hrank
  exact h.trans (sameArrays_searchLoop _ t _ _)

omit [CFFTOoura F] in
theorem sameArrays_searchModes : ∀ (rounds t : ℕ) (A : Analysis F), SameArrays A (Analysis.searchModes rounds t A).2
  | 0, _, _ => .rfl'
  | rounds + 1, t, A => by
    have hmode := sameArrays_searchMode t A
    unfold Analysis.searchModes
    rcases hs : Analysis.searchMode t A with ⟨found, A'⟩
    rw [hs] at hmode
    cases found with
    | true => exact hmode
    | false => exact hmode.trans (sameArrays_searchModes rounds (t + 1) A')

omit [CFFTOoura F] in
/-- The search goes through the modes in range, and reports one of them. -/
theorem searchModes_total : ∀ (rounds t : ℕ) (A : Analysis F), t + rounds = c.lanes → ArraysFit W c g A →
    ∃ st, searchModes c.lanes rounds t A = some st ∧ SameArrays A st.2 ∧ st.1 ≤ c.lanes
  | 0, t, A, hrounds, _ => ⟨(0, A), rfl, .rfl', Int.natCast_nonneg _⟩
  | rounds + 1, t, A, hrounds, hfit => by
    have ht : t < c.lanes := by omega
    have hmode := searchMode_eq ht hfit.frames (hfit.spectrum t ht).1
    have hsame := sameArrays_searchMode t A
    by_cases hfound : (Analysis.searchMode t A).1 = true
    · refine ⟨(1 + t, (Analysis.searchMode t A).2), then_eq hmode ?_, hsame, ?_⟩
      · exact if_pos hfound
      · simp only
        omega
    · obtain ⟨st, hst, hsame', hle⟩ := searchModes_total rounds (t + 1) _ (by omega) (hfit.mono hsame)
      exact ⟨st, then_eq hmode ((if_neg hfound).trans hst), hsame.trans hsame', hle⟩

end Searches

/-! ## A block of tokens -/

section Block

variable {lanes t : ℕ} {A : Analysis F} {g : Globals F} {mode mDecoding : ℤ}

omit [Doubles D] [Floats F D] [CFFTOoura F] in
theorem mToneRepetitions_eq (hn : 0 < A.mSizeBlockCircularBuffer)
    (hmax : ∀ k < A.mSizeBlockCircularBuffer / 2, ∃ i < Analysis.mNumTones,
      A.mBlockEnergyRatiosMaxToneIdx (A.blockPos t k) = (i : ℕ))
    (hsecond : ∀ k < A.mSizeBlockCircularBuffer / 2, ∃ i < Analysis.mNumTones,
      A.mBlockEnergyRatiosSecondToneIdx (A.blockPos t k) = (i : ℕ)) :
    mToneRepetitions A (A.lane t) = some (Analysis.mToneRepetitions t A) := by
  refine forUpM_rule (fun _ _ => True) trivial fun k reps _ hk _ => ⟨?_, trivial⟩
  obtain ⟨i, hi, hmaxi⟩ := hmax k hk
  obtain ⟨j, hj, hsecondj⟩ := hsecond k hk
  have hpos : ((A.lane t).mReadPosInBlockCircularBuffer + k) % A.mSizeBlockCircularBuffer <
      A.mSizeBlockCircularBuffer :=
    Nat.mod_lt _ hn
  refine then_eq (get_cast hpos _) ?_
  rw [show A.mBlockEnergyRatiosMaxToneIdx (((A.lane t).mReadPosInBlockCircularBuffer + k) %
    A.mSizeBlockCircularBuffer) = (i : ℕ) from hmaxi]
  refine then_eq (get_cast hi reps) ?_
  refine then_eq (put_cast hi reps _) ?_
  refine then_eq (get_cast hpos _) ?_
  rw [show A.mBlockEnergyRatiosSecondToneIdx (((A.lane t).mReadPosInBlockCircularBuffer + k) %
    A.mSizeBlockCircularBuffer) = (j : ℕ) from hsecondj]
  refine then_eq (get_cast hj _) ?_
  rw [put_cast hj]
  simp only [hmaxi, hsecondj, Int.toNat_natCast]

omit [Doubles D] [CFFTOoura F] in
theorem noteTokens_eq (ht : t < lanes) (hn : 0 < A.mSizeBlockCircularBuffer) :
    noteTokens lanes mode t A = some (Analysis.noteTokens mode t A) := by
  refine forUpM_rule (fun _ A' => Analysis.KeepsBlock A A') .rfl' fun i A' _ _ hkeep => ⟨?_, ?_⟩
  · have hpos : ((A'.lane t).mReadPosInBlockCircularBuffer + i) % A'.mSizeBlockCircularBuffer <
        A'.mSizeBlockCircularBuffer := Nat.mod_lt _ (hkeep.size ▸ hn)
    refine then_eq (get_cast ht A'.lane) ?_
    refine then_eq (get_cast hpos _) ?_
    exact then_eq (put_cast hpos _ _) rfl
  · exact hkeep.trans (Analysis.setLane_keeps (fun _ => rfl) (fun _ => rfl) (fun _ => rfl) (fun _ => rfl))

omit [Doubles D] [CFFTOoura F] in
theorem agreement_eq (hn : 0 < A.mSizeBlockCircularBuffer) (max : ℤ) :
    agreement max A (A.lane t) = some (Analysis.agreement max t A) := by
  refine forUpM_rule (fun _ _ => True) trivial fun i st _ _ _ => ⟨?_, trivial⟩
  exact then_eq (get_cast (Nat.mod_lt _ hn) _) rfl

omit [CFFTOoura F] in
/-- The value of a block and its statistics are made in range. -/
theorem decodeBlock_eq (ht : t < lanes) (hn : 0 < A.mSizeBlockCircularBuffer)
    (h : InSpectrum A.mSpectralAnalysis.mSpecSize (A.lane t) (Analysis.evalToneBin g mode mDecoding (A.lane t))) :
    decodeBlock lanes g mode mDecoding t A = some (Analysis.decodeBlock g mode mDecoding t A) := by
  obtain ⟨hkeep, hnoted⟩ := Analysis.ComputeStats_spec g mode mDecoding t A
  have hkeep' := hkeep.trans (Analysis.noteTokens_keeps mode t (A.ComputeStats g mode mDecoding t))
  have hreps : mToneRepetitions (A.ComputeStats g mode mDecoding t) ((A.ComputeStats g mode mDecoding t).lane t) =
      some (Analysis.mToneRepetitions t (A.ComputeStats g mode mDecoding t)) := by
    refine mToneRepetitions_eq (hkeep.size ▸ hn) (fun k hk => ?_) (fun k hk => ?_)
    · rw [hkeep.blockPos]
      have hlt := maxValueIdx_lt floatGt (Analysis.toneRatio g mode mDecoding A t k)
        (show 0 < Analysis.mNumTones by decide)
      exact ⟨_, hlt, (hnoted k (hkeep.size ▸ hk)).1⟩
    · rw [hkeep.blockPos]
      have hlt : (Analysis.strongestTones g mode mDecoding A t k).2 < Analysis.mNumTones :=
        (secondValueIdx_spec _ _ (show 2 ≤ Analysis.mNumTones by decide)).1
      exact ⟨_, hlt, (hnoted k (hkeep.size ▸ hk)).2⟩
  have hmax := maxValueIdx_lt intGt (Analysis.mToneRepetitions t (A.ComputeStats g mode mDecoding t))
    (show 0 < Analysis.mNumTones by decide)
  have hsecond := (secondValueIdx_spec intGt (Analysis.mToneRepetitions t (A.ComputeStats g mode mDecoding t))
    (show 2 ≤ Analysis.mNumTones by decide)).1
  unfold decodeBlock
  refine then_eq (ComputeStats_eq ht hn h) ?_
  refine then_eq (get_cast ht _) ?_
  refine then_eq hreps ?_
  refine then_eq (noteTokens_eq ht (hkeep.size ▸ hn)) ?_
  refine then_eq (maxValueIdx_eq intGt _ (by decide) le_rfl) ?_
  refine then_eq (secondValueIdx_eq intGt _ (by decide) le_rfl) ?_
  refine then_eq (get_cast ht _) ?_
  refine then_eq (agreement_eq (t := t) (hkeep'.size ▸ hn) _) ?_
  refine then_eq (get_cast hmax _) ?_
  exact then_eq (get_cast hsecond _) rfl

omit [Doubles D] [Floats F D] [CFFTOoura F] in
theorem sameArrays_consumeBlock (t : ℕ) (A : Analysis F) : SameArrays A (A.consumeBlock t) := by
  have h := sameArrays_setLane (A := A) t (f := fun L => { L with mReadPosInBlockCircularBuffer :=
    (A.mEndStartTokenPosInBlockCircularBuffer + (A.mAccumulatedDecodingFrames + A.mSizeBlockCircularBuffer + 1) / 2) %
      A.mSizeBlockCircularBuffer }) (fun _ => rfl) (fun _ => rfl) fun _ => rfl
  exact ⟨h.mode, h.fft, h.window, h.factors, h.size, h.bins, h.beginBin, h.endBin⟩

omit [CFFTOoura F] in
theorem sameArrays_decodeBlock (g : Globals F) (mode mDecoding : ℤ) (t : ℕ) (A : Analysis F) :
    SameArrays A (Analysis.decodeBlock g mode mDecoding t A).2 := by
  obtain ⟨A', hkeep, hmove⟩ := Analysis.decodeBlock_moves g mode mDecoding t A
  rw [hmove]
  exact (sameArrays_keeps hkeep).trans (sameArrays_consumeBlock t A')

end Block

/-! ## The spectrum -/

section Spectrum

variable {W : ℕ} {S : SpectralAnalysis F} {A : Analysis F}

omit [Doubles D] in
/-- The loop that windows the samples of the frame and no others. -/
theorem transform_total (hfft : S.mFftSize = W) (hwindow : S.mWindowSize = W) (buffer : ℕ → F) :
    ∃ inputBuffer, transform 0 S buffer = some inputBuffer := by
  refine then_some (forUpM_some fun i a _ hi => ?_) fun inputBuffer => forUpM_some fun i a h1 hi => ?_
  · have hi' : i < S.mWindowSize := by omega
    exact ⟨_, then_eq (get_cast hi' buffer) (then_eq (get_cast hi' S.mWindow)
      (put_cast (show i < S.mFftSize + 1 by omega) a _))⟩
  · have hi' : i * 2 + 1 < S.mFftSize + 1 := by omega
    exact ⟨_, then_eq (get_cast hi' a) (put_cast hi' a _)⟩

omit [Doubles D] [CFFTOoura F] in
theorem magnitudes_total (hpos : 0 < S.mFftSize) (value : F → F → F) (edge : F → F) (inputBuffer : ℕ → F) :
    ∃ mag, magnitudes S value edge inputBuffer = some mag := by
  have hspec : S.mSpecSize = S.mFftSize / 2 + 1 := rfl
  refine then_some (forUpM_some fun i mag h1 hi => ?_) fun mag => ?_
  · have hreal : 2 * i < S.mFftSize + 1 := by omega
    have himag : 2 * i + 1 < S.mFftSize + 1 := by omega
    exact ⟨_, then_eq (get_cast hreal inputBuffer) (then_eq (get_cast himag inputBuffer)
      (put_cast (show i < S.mSpecSize by omega) mag _))⟩
  · refine ⟨_, then_eq (get_eq (le_refl 0) (by omega) inputBuffer) (then_eq (put_cast (i := 0) (by omega) mag _)
      (then_eq (get_eq (by decide) (by omega) inputBuffer)
        (put_cast (show S.mFftSize / 2 < S.mSpecSize by omega) _ _)))⟩

omit [Doubles D] [CFFTOoura F] in
theorem phases_total (inputBuffer : ℕ → F) : ∃ imag, phases S inputBuffer = some imag := by
  have hspec : S.mSpecSize = S.mFftSize / 2 + 1 := rfl
  obtain ⟨imag, himag⟩ := forUpM_some (a := 0) (b := S.mFftSize / 2)
    (s := Function.update (Function.update S.mSpecPhase 0 (Floats.lit 0)) (S.mFftSize / 2) (Floats.lit 0))
    (g := fun i imag => do put S.mSpecSize imag i (← get (S.mFftSize + 1) inputBuffer (2 * i + 1 : ℕ)))
    fun i imag _ hi => ⟨_, then_eq (get_cast (show 2 * i + 1 < S.mFftSize + 1 by omega) inputBuffer)
      (put_cast (show i < S.mSpecSize by omega) imag _)⟩
  exact ⟨imag, then_eq (put_cast (i := 0) (by omega) _ _)
    (then_eq (put_cast (show S.mFftSize / 2 < S.mSpecSize by omega) _ _) himag)⟩

omit [Doubles D] in
theorem doFFT_total (hpos : 0 < W) (hfft : S.mFftSize = W) (hwindow : S.mWindowSize = W) (buffer : ℕ → F) :
    ∃ S', doFFT 0 S buffer = some S' ∧ (S'.mode = S.mode ∧ S'.mFftSize = S.mFftSize) ∧
      S'.mWindowSize = S.mWindowSize ∧ S'.mWindow = S.mWindow := by
  obtain ⟨inputBuffer, htransform⟩ := transform_total hfft hwindow buffer
  obtain ⟨imag, hphases⟩ := phases_total (S := S) inputBuffer
  unfold doFFT
  cases hmode : S.mode with
  | kMagnitudeSpectrum =>
    obtain ⟨mag, hmag⟩ := magnitudes_total (hfft ▸ hpos)
      (fun real imag => Floats.sqrt (real * real + imag * imag)) Floats.abs inputBuffer
    exact ⟨_, then_eq htransform (then_eq hmag (then_eq hphases rfl)), ⟨rfl, rfl⟩, rfl, rfl⟩
  | kEnergySpectrum =>
    obtain ⟨mag, hmag⟩ := magnitudes_total (hfft ▸ hpos) (fun real imag => real * real + imag * imag)
      (fun real => real * real) inputBuffer
    exact ⟨_, then_eq htransform (then_eq hmag (then_eq hphases rfl)), ⟨rfl, rfl⟩, rfl, rfl⟩

omit [Doubles D] in
theorem storeSpectrum_total (hpos : 0 < W) (hfft : A.mSpectralAnalysis.mFftSize = W)
    (hwindow : A.mSpectralAnalysis.mWindowSize = W) (hn : 0 < A.mSizeBlockCircularBuffer) (audioBuffer : ℕ → F) :
    ∃ A', storeSpectrum 0 audioBuffer A = some A' ∧ SameArrays A A' := by
  obtain ⟨S', hdoFFT, ⟨hmode', hfft'⟩, hwindow', hfactors'⟩ := doFFT_total hpos hfft hwindow audioBuffer
  obtain ⟨mags, hmags⟩ := forUpM_some (a := 0) (b := S'.mSpecSize) (s := A.mBlockSpecMag)
    (g := fun i mags => do
      put2 A.mSizeBlockCircularBuffer S'.mSpecSize mags
        (A.mWritePosInBlockCircularBuffer % A.mSizeBlockCircularBuffer : ℕ) i (← get S'.mSpecSize S'.mSpecMag i))
    fun i mags _ hi => ⟨_, then_eq (get_cast hi S'.mSpecMag) (put2_cast (Nat.mod_lt _ hn) hi mags _)⟩
  exact ⟨_, then_eq hdoFFT (then_eq hmags rfl), hmode', hfft', hwindow', hfactors', rfl, fun _ => rfl, fun _ => rfl,
    fun _ => rfl⟩

end Spectrum

/-! ## The handling of a frame -/

section Step

variable {W : ℕ} {c : DecoderClass} {g : Globals F} {A : Analysis F}

theorem AnalyzeStartTokens_total (hfit : ArraysFit W c g A) (audioBuffer : ℕ → F) :
    ∃ st, AnalyzeStartTokens 0 c.lanes audioBuffer A = some st ∧ SameArrays A st.2 ∧ st.1 ≤ c.lanes := by
  obtain ⟨A', hstore, hsame⟩ := storeSpectrum_total hfit.samples hfit.fft hfit.window hfit.frames audioBuffer
  obtain ⟨st, hsearch, hsame', hle⟩ := searchModes_total c.lanes 0 A' (Nat.zero_add _) (hfit.mono hsame)
  exact ⟨st, then_eq hstore hsearch, hsame.trans hsame', hle⟩

theorem AnalyzeToken_total (hfit : ArraysFit W c g A) {t : ℕ} (ht : t < c.lanes) (mDecoding : ℤ) (audioBuffer : ℕ → F) :
    ∃ st, AnalyzeToken 0 c.lanes g (laneMode c t) mDecoding t audioBuffer A = some st ∧ SameArrays A st.2 := by
  obtain ⟨A', hstore, hsame⟩ := storeSpectrum_total hfit.samples hfit.fft hfit.window hfit.frames audioBuffer
  have hfit' : ArraysFit W c g A'.advanceWritePos := ⟨(hfit.mono hsame).fft, (hfit.mono hsame).window, hfit.samples,
    (hfit.mono hsame).frames, (hfit.mono hsame).spectrum⟩
  have hsame' : SameArrays A A'.advanceWritePos :=
    ⟨hsame.mode, hsame.fft, hsame.window, hsame.factors, hsame.size, hsame.bins, hsame.beginBin, hsame.endBin⟩
  by_cases hfilled : A'.advanceWritePos.getSizeFilledBlockCircularBuffer t ≥
    A'.advanceWritePos.mSizeBlockCircularBuffer / 2
  · have hblock : decodeBlock c.lanes g (laneMode c t) mDecoding t A'.advanceWritePos =
        some (Analysis.decodeBlock g (laneMode c t) mDecoding t A'.advanceWritePos) :=
      decodeBlock_eq ht hfit'.frames ((hfit'.spectrum t ht).2 mDecoding)
    exact ⟨_, then_eq hstore (then_eq (get_cast ht _) ((if_pos hfilled).trans hblock)),
      hsame'.trans (sameArrays_decodeBlock g (laneMode c t) mDecoding t _)⟩
  · exact ⟨_, then_eq hstore (then_eq (get_cast ht _) (if_neg hfilled)), hsame'⟩

/-- What the analysis relies on: its arrays, and a mode that exists where a message is read. -/
structure CoreFits (W : ℕ) (c : DecoderClass) (g : Globals F) (C : Core F) : Prop where
  arrays : ArraysFit W c g C.analysis
  mode : c = .AllMultiTone → C.mDecoding ≠ 0 → ∃ t < 3, C.mDecodingMode = (t : ℕ)

/-- Every frame is handled in range, and leaves what the next one relies on. -/
theorem step_total (hc : c.isMultiTone = true) {C : Core F} (hfit : CoreFits W c g C) (frame : ℕ → F) :
    ∃ r, step 0 c g frame C = some r ∧ CoreFits W c g r.2 := by
  unfold step
  by_cases h0 : C.mDecoding = 0
  · rw [if_pos h0]
    obtain ⟨⟨ret, A⟩, hsearch, hsame, hle⟩ := AnalyzeStartTokens_total hfit.arrays frame
    have harrays := hfit.arrays.mono hsame
    by_cases hstart : Core.isStart c ret = true
    · refine ⟨_, then_eq hsearch (congrArg some (if_pos hstart)), ?_, fun hall _ => ?_⟩
      · simp only [Core.begin, hc, if_true]
        exact ⟨harrays.fft, harrays.window, harrays.samples, harrays.frames, harrays.spectrum⟩
      · subst hall
        have h1 : ret ≥ 1 := of_decide_eq_true hstart
        have h3 : ret ≤ (3 : ℕ) := hle
        refine ⟨(ret - 1).toNat, by omega, ?_⟩
        simp only [Core.begin, if_true]
        omega
    · refine ⟨_, then_eq hsearch (congrArg some (if_neg hstart)), harrays, fun _ hne => absurd h0 hne⟩
  · rw [if_neg h0]
    by_cases hmessage : C.mDecoding > 0 ∧ C.mDecoding ≤ numMessageTokens
    · rw [if_pos hmessage]
      obtain ⟨t, ht, hmode⟩ : ∃ t : ℕ, t < c.lanes ∧
          (if c = .AllMultiTone then (C.mDecodingMode, C.mDecodingMode) else (c.mode, 0)) =
            (laneMode c t, (t : ℤ)) := by
        unfold laneMode
        by_cases hall : c = .AllMultiTone
        · obtain ⟨t, ht, hmode⟩ := hfit.mode hall h0
          subst hall
          exact ⟨t, ht, by rw [if_pos rfl, if_pos rfl, hmode]⟩
        · have hlane : 0 < c.lanes := by cases c <;> decide
          exact ⟨0, hlane, by rw [if_neg hall, if_neg hall]; rfl⟩
      obtain ⟨⟨ret, A⟩, htoken, hsame⟩ := AnalyzeToken_total hfit.arrays ht C.mDecoding frame
      have harrays := hfit.arrays.mono hsame
      rw [hmode]
      by_cases hfound : ret ≥ 0
      · refine ⟨_, then_eq htoken (congrArg some (if_pos hfound)), harrays, fun hall _ => hfit.mode hall h0⟩
      · refine ⟨_, then_eq htoken (congrArg some (if_neg hfound)), harrays, hfit.mode⟩
    · rw [if_neg hmessage]
      by_cases hend : C.mDecoding > numMessageTokens
      · refine ⟨_, if_pos hend, ?_, fun _ hne => absurd rfl hne⟩
        simp only [Core.finish, hc, if_true]
        have harrays := hfit.arrays
        exact ⟨harrays.fft, harrays.window, harrays.samples, harrays.frames, harrays.spectrum⟩
      · exact ⟨_, if_neg hend, hfit⟩

end Step

/-! ## The loop over the frames -/

section Frames

omit [Doubles D] [Floats F D] [CFFTOoura F]

variable {B : FrameBuffer F}

theorem write_eq (hpos : 0 < B.mWindowSize) (audioBuffer : ℕ → F) (size : ℕ) :
    write audioBuffer size B = some (B.write audioBuffer size) := by
  have hring : 0 < B.mSizeFrameCircularBuffer := Nat.mul_pos hpos (by decide)
  refine then_eq (forUpM_rule (fun _ _ => True) trivial fun i cells _ hi _ => ⟨?_, trivial⟩) rfl
  exact then_eq (get_cast hi audioBuffer) (put_cast (Nat.mod_lt _ hring) cells _)

theorem nextFrame_eq (hpos : 0 < B.mWindowSize) : nextFrame B = some B.nextFrame := by
  have hring : 0 < B.mSizeFrameCircularBuffer := Nat.mul_pos hpos (by decide)
  refine then_eq (forUpM_rule (fun _ _ => True) trivial fun i a _ hi _ => ⟨?_, trivial⟩) rfl
  exact then_eq (get_cast (Nat.mod_lt _ hring) B.mCircularBufferFloat) (put_cast hi a _)

variable {σ : Type} {step : (ℕ → F) → σ → Option (Option ℤ × σ)}

theorem frameLoop_total (I : σ → Prop) (hs : ∀ frame s, I s → ∃ r, step frame s = some r ∧ I r.2) :
    ∀ (fuel : ℕ) (B : FrameBuffer F) (s : σ), 0 < B.mWindowSize → I s →
      ∃ r, frameLoop step fuel (B, s) = some r ∧ r.2.1.mWindowSize = B.mWindowSize ∧ I r.2.2
  | 0, B, s, _, hI => ⟨_, rfl, rfl, hI⟩
  | fuel + 1, B, s, hpos, hI => by
    by_cases h : B.getSizeFilledFrameCircularBuffer ≥ B.mWindowSize
    · obtain ⟨⟨ret, s'⟩, hstep, hI'⟩ := hs B.nextFrame.mAnalBufferFloat s hI
      cases ret with
      | some ret =>
        exact ⟨_, (if_pos h).trans (then_eq (nextFrame_eq hpos) (then_eq hstep rfl)), rfl, hI'⟩
      | none =>
        obtain ⟨r, hloop, hsize, hI''⟩ := frameLoop_total I hs fuel B.nextFrame s' hpos hI'
        exact ⟨r, (if_pos h).trans (then_eq (nextFrame_eq hpos) (then_eq hstep hloop)), hsize, hI''⟩
    · exact ⟨_, if_neg h, rfl, hI⟩

theorem frameLoop_short {s : σ} (h : ¬ B.getSizeFilledFrameCircularBuffer ≥ B.mWindowSize) :
    ∀ fuel, frameLoop step fuel (B, s) = some (none, B, s)
  | 0 => rfl
  | _ + 1 => if_neg h

theorem frameLoop_none {s : σ} (hpos : 0 < B.mWindowSize) (h : B.getSizeFilledFrameCircularBuffer ≥ B.mWindowSize)
    (hs : ∀ frame, step frame s = none) (fuel : ℕ) : frameLoop step (fuel + 1) (B, s) = none := by
  refine (if_pos h).trans (then_eq (nextFrame_eq hpos) ?_)
  rw [hs]
  rfl

end Frames

/-! ## Runs -/

section Runs

variable {W : ℕ} {c : DecoderClass} {g : Globals F}

/-- With one round less in the loop of `doFFT`, no access of any run is out of range. -/
theorem run_total (hc : c.isMultiTone = true) : ∀ (calls : List ((ℕ → F) × ℕ)) (d : Decoder F), d.cls = c →
    0 < d.frames.mWindowSize → CoreFits W c g d.core → ∃ d', run 0 g calls d = some d'
  | [], d, _, _, _ => ⟨d, rfl⟩
  | (audioBuffer, size) :: calls, d, hcls, hpos, hfit => by
    have hstep : ∀ frame C, CoreFits W c g C → ∃ r, step 0 d.cls g frame C = some r ∧ CoreFits W c g r.2 := by
      intro frame C hC
      rw [hcls]
      exact step_total hc hC frame
    obtain ⟨⟨ret, frames, core⟩, hloop, hsize, hfit'⟩ := frameLoop_total (CoreFits W c g) hstep
      (d.frames.write audioBuffer size).getSizeFilledFrameCircularBuffer
        (d.frames.write audioBuffer size) d.core hpos hfit
    have hcall : DecodeAudioBuffer 0 g audioBuffer size d =
        some (ret.getD (-1), { d with frames := frames, core := core }) :=
      then_eq (write_eq hpos audioBuffer size) (then_eq hloop rfl)
    obtain ⟨d', hrun⟩ := run_total hc calls { d with frames := frames, core := core } hcls
      (show 0 < frames.mWindowSize from hsize ▸ hpos) hfit'
    exact ⟨d', then_eq hcall hrun⟩

omit [Doubles D] in
/-- The loop of `doFFT` reads one sample past the end of the frame. -/
theorem transform_none {S : SpectralAnalysis F} (hfft : S.mFftSize = W) (hwindow : S.mWindowSize = W)
    (buffer : ℕ → F) : transform 1 S buffer = none := by
  refine Option.eq_none_iff_forall_not_mem.2 fun r hr => ?_
  obtain ⟨inputBuffer, hloop, -⟩ := Option.bind_eq_some_iff.1 hr
  obtain ⟨a, a', hround⟩ := forUpM_rounds hloop (Nat.zero_le W) (by omega)
  obtain ⟨x, hx, -⟩ := Option.bind_eq_some_iff.1 hround
  have := (get_inv hx).2
  omega

theorem step_none {C : Core F} (h0 : C.mDecoding = 0) (hfft : C.analysis.mSpectralAnalysis.mFftSize = W)
    (hwindow : C.analysis.mSpectralAnalysis.mWindowSize = W) (frame : ℕ → F) : step 1 c g frame C = none := by
  refine (if_pos h0).trans ?_
  unfold AnalyzeStartTokens storeSpectrum doFFT
  rw [transform_none hfft hwindow]
  rfl

/-- A decoder that has been given `total` samples, and no frame so far. -/
structure Empty (W total : ℕ) (d : Decoder F) : Prop where
  idle : d.core.mDecoding = 0
  fft : d.core.analysis.mSpectralAnalysis.mFftSize = W
  window : d.core.analysis.mSpectralAnalysis.mWindowSize = W
  frames : d.frames.mWindowSize = W
  read : d.frames.mReadPosInFrameCircularBuffer = 0
  write : d.frames.mWritePosInFrameCircularBuffer = total % (4 * W)

/-- The next call completes a frame, and fails, exactly where the ring then seems to hold a whole window. -/
theorem DecodeAudioBuffer_first {total : ℕ} {d : Decoder F} (hW : 0 < W) (h : Empty W total d) (audioBuffer : ℕ → F)
    (size : ℕ) :
    ((total + size) % (4 * W) < W → ∃ answer, DecodeAudioBuffer 1 g audioBuffer size d = some answer ∧
      Empty W (total + size) answer.2) ∧
    (¬ (total + size) % (4 * W) < W → DecodeAudioBuffer 1 g audioBuffer size d = none) := by
  have hpos : 0 < d.frames.mWindowSize := h.frames ▸ hW
  have hwrite : (d.frames.write audioBuffer size).mWritePosInFrameCircularBuffer = (total + size) % (4 * W) := by
    show (size + d.frames.mWritePosInFrameCircularBuffer) % (d.frames.mWindowSize * 4) = _
    rw [h.write, h.frames, Nat.mul_comm W 4, Nat.add_mod_mod, Nat.add_comm]
  have hfilled : (d.frames.write audioBuffer size).getSizeFilledFrameCircularBuffer = (total + size) % (4 * W) := by
    show RingBuffer.filled _ d.frames.mReadPosInFrameCircularBuffer _ = _
    rw [h.read, hwrite]
    exact if_pos (Nat.zero_le _)
  have hwindow : (d.frames.write audioBuffer size).mWindowSize = W := h.frames
  constructor
  · intro hlt
    have hshort : ¬ (d.frames.write audioBuffer size).getSizeFilledFrameCircularBuffer ≥
        (d.frames.write audioBuffer size).mWindowSize := by omega
    exact ⟨_, then_eq (write_eq hpos audioBuffer size) (then_eq (frameLoop_short hshort _) rfl),
      h.idle, h.fft, h.window, hwindow, h.read, hwrite⟩
  · intro hge
    obtain ⟨fuel, hfuel⟩ : ∃ fuel, (d.frames.write audioBuffer size).getSizeFilledFrameCircularBuffer = fuel + 1 :=
      ⟨(total + size) % (4 * W) - 1, by omega⟩
    refine then_eq (write_eq hpos audioBuffer size) ?_
    rw [hfuel, frameLoop_none (by omega) (by omega) (step_none h.idle h.fft h.window)]
    rfl

theorem run_isSome_iff (hW : 0 < W) : ∀ (calls : List ((ℕ → F) × ℕ)) {total : ℕ} {d : Decoder F}, Empty W total d →
    total % (4 * W) < W → ((run 1 g calls d).isSome ↔
      ∀ pre, pre <+: calls → (total + (pre.map Prod.snd).sum) % (4 * W) < W)
  | [], total, d, _, h0 => by
    refine iff_of_true rfl fun pre hpre => ?_
    rw [List.prefix_nil.1 hpre]
    exact h0
  | (audioBuffer, size) :: calls, total, d, h, h0 => by
    obtain ⟨hfits, hfull⟩ := DecodeAudioBuffer_first (g := g) hW h audioBuffer size
    by_cases hlt : (total + size) % (4 * W) < W
    · obtain ⟨answer, hcall, hempty⟩ := hfits hlt
      have hrun : run 1 g ((audioBuffer, size) :: calls) d = run 1 g calls answer.2 := then_eq hcall rfl
      rw [hrun, run_isSome_iff hW calls hempty hlt]
      constructor
      · intro hall pre hpre
        rcases List.prefix_cons_iff.1 hpre with rfl | ⟨rest, rfl, hrest⟩
        · exact h0
        · rw [List.map_cons, List.sum_cons, ← Nat.add_assoc]
          exact hall rest hrest
      · intro hall rest hrest
        have hpre := hall ((audioBuffer, size) :: rest) (List.cons_prefix_cons.2 ⟨rfl, hrest⟩)
        rwa [List.map_cons, List.sum_cons, ← Nat.add_assoc] at hpre
    · have hrun : run 1 g ((audioBuffer, size) :: calls) d = none := by
        unfold run
        rw [hfull hlt]
        rfl
      rw [hrun]
      refine iff_of_false (by simp) fun hall => hlt ?_
      have hpre := hall [(audioBuffer, size)] (List.cons_prefix_cons.2 ⟨rfl, List.nil_prefix⟩)
      rwa [List.map_singleton, List.sum_singleton] at hpre

end Runs

end Checked

open Checked

variable {F D : Type} [Doubles D] [Floats F D] [CFFTOoura F]

/-- Whatever the chunks and the arithmetic: a run of a decoder with windows of 2048 samples stays in its arrays exactly
when no call ends with 2048 samples or more in its ring of 8192. -/
theorem frames_in_bounds_iff (mem : Decoder F) (memRS : ReedSolomon) (mode : OxyMode) (g g' : Globals F)
    (samplingRate : F) (calls : List ((ℕ → F) × ℕ)) :
    (run 1 g' calls (.new mem memRS (OxyCore.decoderClass mode) g samplingRate 2048)).isSome ↔
      ∀ pre, pre <+: calls → (pre.map Prod.snd).sum % 8192 < 2048 := by
  have hempty : Empty 2048 0 (Decoder.new mem memRS (OxyCore.decoderClass mode) g samplingRate 2048) :=
    ⟨rfl, rfl, rfl, rfl, rfl, rfl⟩
  have h := run_isSome_iff (g := g') (by decide) calls hempty (by decide)
  simp only [Nat.zero_add] at h
  exact h

/-- A first call with a whole window. -/
theorem window_out_of_bounds : ¬ (run 1 initial [((fun _ => 0 : ℕ → ℝ), 2048)]
    (.new default default (OxyCore.decoderClass .NONAUDIBLE) initial 44100 2048)).isSome := by
  have hempty :
      Empty 2048 0 (Decoder.new default default (OxyCore.decoderClass .NONAUDIBLE) initial (44100 : ℝ) 2048) :=
    ⟨rfl, rfl, rfl, rfl, rfl, rfl⟩
  rw [run_isSome_iff (by decide) _ hempty (by decide)]
  intro h
  have hlast := h [((fun _ => 0 : ℕ → ℝ), 2048)] (List.prefix_refl _)
  simp at hlast

/-- In exact arithmetic, at 44100 Hz: with one round less in the loop of `doFFT`, all accesses of every run are in
range. -/
theorem short_loop_in_bounds (mem : Decoder ℝ) (memRS : ReedSolomon) {mode : OxyMode} (hmode : mode ≠ .CUSTOM)
    (g : Globals ℝ) (calls : List ((ℕ → ℝ) × ℕ)) :
    ∃ d, run 0 (OxyCore.Configure mem memRS mode 44100 g).2 calls
      (OxyCore.Configure mem memRS mode 44100 g).1.mDecoder = some d := by
  have hreads := builtin_44100 mem memRS g hmode
  have hmulti : (OxyCore.decoderClass mode).isMultiTone = true := by cases mode <;> rfl
  set W := OxyCore.windowSizeFor (44100 : ℝ)
  have hW : 0 < W := windowSizeFor_pos 44100
  have hring := Decoder.ringSize_44100 mem.core.analysis (OxyCore.decoderClass mode) ((g.init W).init W) W
  refine run_total (W := W) hmulti calls _ rfl hW ⟨⟨rfl, rfl, hW, ?_, hreads⟩, ?_⟩
  · exact lt_of_lt_of_eq (by decide) hring.symm
  · exact fun _ h0 => absurd rfl h0

end Undertone
