import Undertone.Blocks
import Undertone.Bounds
import Undertone.Handles
import Undertone.Leftover
import Undertone.Transform

/-!
# The decoder of all modes in a message

After the start tokens, the decoder of all modes reads a message as the decoder of that mode alone does. The two may
have searched for different times, so a frame lies in different slots of their rings, and the slots around it hold
other things: what agrees is the frames since the start tokens (`Twins`). Every frame keeps this, up to the one that
ends the message (`Twins.step`).
-/

namespace Undertone

open CountedLoop RingBuffer Globals

/-! ## Spectra -/

namespace SpectralAnalysis

variable {F D : Type} [Floats F D] [CFFTOoura F]

/-- The transform works on the cells that it is given, and on no others. -/
def RdftLocal (F : Type) [CFFTOoura F] : Prop :=
  ∀ (n : ℕ) (a b : ℕ → F), (∀ i < n, a i = b i) → ∀ i < n, CFFTOoura.rdft n a i = CFFTOoura.rdft n b i

theorem rdftLocal_real : RdftLocal ℝ := by
  intro n a b h i hi
  show realDFT n a i = realDFT n b i
  have hsum : ∀ f : ℕ → ℝ, ∑ j ∈ Finset.range n, a j * f j = ∑ j ∈ Finset.range n, b j * f j := fun f =>
    Finset.sum_congr rfl fun j hj => by rw [h j (Finset.mem_range.1 hj)]
  simp only [realDFT, if_neg (Nat.not_le.2 hi), hsum]

/-- The same arithmetic, in other memory. -/
theorem carries_id (hlocal : RdftLocal F) : Carries (id : F → F) :=
  ⟨fun _ _ => rfl, fun _ _ => rfl, fun _ => rfl, fun _ => rfl, fun _ _ => rfl, fun n a b h => hlocal n b a h⟩

end SpectralAnalysis

namespace Analysis

open SpectralAnalysis Checked Core

variable {F D : Type} [Doubles D] [Floats F D] [CFFTOoura F]

/-! ## Two rings -/

/-- Lane `t` of the one listens to what lane `t'` of the other listens to, in rings of `N` frames. -/
structure SameSettings (N t t' : ℕ) (A A' : Analysis F) : Prop where
  size : A.mSizeBlockCircularBuffer = N
  size' : A'.mSizeBlockCircularBuffer = N
  transform : SameTransform id A.mSpectralAnalysis A'.mSpectralAnalysis
  bins : ∀ i < mNumTones, (A'.lane t').mFreqsBins i = (A.lane t).mFreqsBins i
  beginBin : (A'.lane t').mBeginBin = (A.lane t).mBeginBin
  endBin : (A'.lane t').mEndBin = (A.lane t).mEndBin

/-- `m` frames and `k` blocks into a message whose start tokens ended at `E` in the one ring and at `E'` in the other:
both hold the spectra of its last frames. -/
structure SameFrames (N E E' t t' m k : ℕ) (A A' : Analysis F) : Prop where
  placed : Placed N E t m k A
  placed' : Placed N E' t' m k A'
  cells : ∀ i < m, m ≤ i + N → ∀ bin < A.mSpectralAnalysis.mSpecSize,
    A'.mBlockSpecMag ((E' + i) % N) bin = A.mBlockSpecMag ((E + i) % N) bin

/-- Two analyses that have read the same part of a message. A ring of less than two frames has blocks without frames. -/
structure Twins (N E E' t t' m k : ℕ) (A A' : Analysis F) : Prop where
  settings : SameSettings N t t' A A'
  frames : 2 ≤ N → SameFrames N E E' t t' m k A A'
  confidence : A'.mConfidenceEnergyRatios = A.mConfidenceEnergyRatios
  volume : A'.mReceivedOxysVolume = A.mReceivedOxysVolume

section Twins

variable {N E E' t t' m k : ℕ} {A A' : Analysis F} {g : Globals F} {mode mDecoding : ℤ}

omit [Doubles D] in
/-- The cells of the ring after a frame is stored in it. -/
theorem storeSpectrum_cell (hw : A.mWritePosInBlockCircularBuffer = (E + m) % N) (hN : A.mSizeBlockCircularBuffer = N)
    (frame : ℕ → F) {i : ℕ} (hi : i < m + 1) (hold : m + 1 ≤ i + N) {bin : ℕ}
    (hbin : bin < A.mSpectralAnalysis.mSpecSize) :
    (storeSpectrum frame A).mBlockSpecMag ((E + i) % N) bin =
      if i = m then (A.mSpectralAnalysis.doFFT frame).mSpecMag bin else A.mBlockSpecMag ((E + i) % N) bin := by
  have hspec : bin < (A.mSpectralAnalysis.doFFT frame).mSpecSize := hbin
  simp only [storeSpectrum, hw, hN, Nat.mod_mod]
  by_cases him : i = m
  · subst him
    rw [Function.update_self, if_pos hspec, if_pos rfl]
  · have hne : (E + i) % N ≠ (E + m) % N := mod_ne (le_refl _) (by omega) (by omega)
    rw [Function.update_of_ne hne, if_neg him]

omit [Doubles D] in
/-- Both store the next frame. -/
theorem SameFrames.stored (h : SameFrames N E E' t t' m k A A') (hset : SameSettings N t t' A A') (hlocal : RdftLocal F)
    (h2 : 2 ≤ A.mSpectralAnalysis.mFftSize) (frame : ℕ → F) :
    ∀ i < m + 1, m + 1 ≤ i + N → ∀ bin < A.mSpectralAnalysis.mSpecSize,
      (advanceWritePos (storeSpectrum frame A')).mBlockSpecMag ((E' + i) % N) bin =
        (advanceWritePos (storeSpectrum frame A)).mBlockSpecMag ((E + i) % N) bin := by
  intro i hi hold bin hbin
  refine (storeSpectrum_cell h.placed'.write h.placed'.size frame hi hold (hset.transform.specSize ▸ hbin)).trans
    (Eq.trans ?_ (storeSpectrum_cell h.placed.write h.placed.size frame hi hold hbin).symm)
  by_cases him : i = m
  · rw [if_pos him, if_pos him]
    exact hset.transform.spectrum (carries_id hlocal) h2 (fun _ _ => rfl) bin hbin
  · rw [if_neg him, if_neg him, h.cells i (by omega) (by omega) bin hbin]

omit [CFFTOoura F] in
/-- Two blocks whose cells agree in all bins of the spectrum. -/
theorem SameSettings.block (h : SameSettings N t t' A A')
    (hin : InSpectrum A.mSpectralAnalysis.mSpecSize (A.lane t) (evalToneBin g mode mDecoding (A.lane t)))
    (hcells : ∀ j < A.mSizeBlockCircularBuffer / 2, ∀ bin < A.mSpectralAnalysis.mSpecSize,
      A'.mBlockSpecMag (A'.blockPos t' j) bin = A.mBlockSpecMag (A.blockPos t j) bin) :
    SameBlock g mode mDecoding A t A' t' := by
  obtain ⟨hregion, htones⟩ := inSpectrum_iff.1 hin
  have hcell : ∀ j < A.mSizeBlockCircularBuffer / 2, ∀ bin : ℤ, 0 ≤ bin → bin < A.mSpectralAnalysis.mSpecSize →
      cell (A'.mBlockSpecMag (A'.blockPos t' j)) bin = cell (A.mBlockSpecMag (A.blockPos t j)) bin :=
    fun j hj bin h0 hbin => hcells j hj _ (by omega)
  have hsize : A'.mSizeBlockCircularBuffer = A.mSizeBlockCircularBuffer := h.size'.trans h.size.symm
  refine ⟨hsize, h.transform.specSize, ?_, fun j hj i hi => ?_⟩
  · simp only [energyBlock, hsize, h.beginBin, h.endBin]
    refine congrArg (· / _) (forUp_congr (fun j e _ hj => forUp_congr (fun i e _ hi => ?_) e) _)
    obtain ⟨h0, h1⟩ := hregion ((A.lane t).mBeginBin + i) (by omega) (by omega)
    rw [hcell j hj _ h0 h1]
  · have hbin : evalToneBin g mode mDecoding (A'.lane t') i = evalToneBin g mode mDecoding (A.lane t) i := by
      unfold evalToneBin
      rw [h.bins i hi]
    obtain ⟨h0, h1⟩ := htones i hi
    simp only [toneSum, hbin]
    refine congrArg Floats.toDouble (forUp_congr (fun n s _ hn => ?_) _)
    have hn : n < 3 := hn
    have hwidth : ((mBinWidth : ℕ) : ℤ) = 1 := rfl
    exact congrArg (s + ·) (hcell j hj _ (by omega) (by omega))

omit [CFFTOoura F] in
theorem decodeBlock_mag (g : Globals F) (mode mDecoding : ℤ) (t : ℕ) (A : Analysis F) :
    (decodeBlock g mode mDecoding t A).2.mBlockSpecMag = A.mBlockSpecMag := by
  obtain ⟨B, hkeep, hB⟩ := decodeBlock_moves g mode mDecoding t A
  rw [hB]
  exact hkeep.mag

omit [Doubles D] [CFFTOoura F] in
theorem SameSettings.mono (h : SameSettings N t t' A A') {B B' : Analysis F} (hsame : SameArrays A B)
    (hsame' : SameArrays A' B') : SameSettings N t t' B B' := by
  refine ⟨hsame.size.trans h.size, hsame'.size.trans h.size', ⟨?_, ?_, fun i hi => ?_⟩, fun i hi => ?_, ?_, ?_⟩
  · rw [hsame.mode, hsame'.mode, h.transform.mode]
  · rw [hsame.fft, hsame'.fft, h.transform.fft]
  · rw [hsame.factors, hsame'.factors]
    exact h.transform.window i (hsame.fft ▸ hi)
  · rw [hsame.bins, hsame'.bins, h.bins i hi]
  · rw [hsame.beginBin, hsame'.beginBin, h.beginBin]
  · rw [hsame.endBin, hsame'.endBin, h.endBin]

omit [CFFTOoura F] in
/-- Both take a block. -/
theorem SameBlock.twins (hset : SameSettings N t t' A A') (h : SameBlock g mode mDecoding A t A' t')
    (hconfidence : A'.mConfidenceEnergyRatios = A.mConfidenceEnergyRatios)
    (hvolume : A'.mReceivedOxysVolume = A.mReceivedOxysVolume)
    (hframes : 2 ≤ N → SameFrames N E E' t t' m k (decodeBlock g mode mDecoding t A).2
      (decodeBlock g mode mDecoding t' A').2) :
    Twins N E E' t t' m k (decodeBlock g mode mDecoding t A).2 (decodeBlock g mode mDecoding t' A').2 := by
  obtain ⟨hconfidence', hvolume'⟩ := h.adds hconfidence hvolume
  exact ⟨hset.mono (sameArrays_decodeBlock g mode mDecoding t A) (sameArrays_decodeBlock g mode mDecoding t' A'),
    hframes, hconfidence', hvolume'⟩

/-- A frame of the message: both take a block, and the same value of it, or none. -/
theorem Twins.token (h : Twins N E E' t t' m k A A') (hlocal : RdftLocal F) (h2 : 2 ≤ A.mSpectralAnalysis.mFftSize)
    (hin : InSpectrum A.mSpectralAnalysis.mSpecSize (A.lane t) (evalToneBin g mode mDecoding (A.lane t)))
    (frame : ℕ → F) :
    (A'.AnalyzeToken g mode mDecoding t' frame).1 = (A.AnalyzeToken g mode mDecoding t frame).1 ∧
      ∃ k', Twins N E E' t t' (m + 1) k' (A.AnalyzeToken g mode mDecoding t frame).2
        (A'.AnalyzeToken g mode mDecoding t' frame).2 := by
  set S := advanceWritePos (storeSpectrum frame A) with hS
  set S' := advanceWritePos (storeSpectrum frame A') with hS'
  have hset : SameSettings N t t' S S' := h.settings.mono
    ⟨rfl, rfl, rfl, rfl, rfl, fun _ => rfl, fun _ => rfl, fun _ => rfl⟩
    ⟨rfl, rfl, rfl, rfl, rfl, fun _ => rfl, fun _ => rfl, fun _ => rfl⟩
  by_cases hN : 2 ≤ N
  · have hframes := h.frames hN
    have hcells := hframes.stored h.settings hlocal h2 frame
    have htoken := hframes.placed.token hN g mode mDecoding frame
    have htoken' := hframes.placed'.token hN g mode mDecoding frame
    by_cases hlast : m + 1 = blockStart N k + N / 2
    · rw [if_pos hlast] at htoken htoken'
      obtain ⟨hblock, hplaced⟩ := htoken
      obtain ⟨hblock', hplaced'⟩ := htoken'
      have hpos : ∀ j, S.blockPos t j = (E + (blockStart N k + j)) % N := fun j => by
        have hread : (S.lane t).mReadPosInBlockCircularBuffer = (E + blockStart N k) % N := hframes.placed.read
        rw [blockPos, hread, hset.size, Nat.mod_add_mod, Nat.add_assoc]
      have hpos' : ∀ j, S'.blockPos t' j = (E' + (blockStart N k + j)) % N := fun j => by
        have hread : (S'.lane t').mReadPosInBlockCircularBuffer = (E' + blockStart N k) % N := hframes.placed'.read
        rw [blockPos, hread, hset.size', Nat.mod_add_mod, Nat.add_assoc]
      have hsame : SameBlock g mode mDecoding S t S' t' := by
        refine hset.block hin fun j hj bin hbin => ?_
        rw [hset.size] at hj
        rw [hpos, hpos']
        exact hcells _ (by omega) (by omega) bin hbin
      rw [hblock] at hplaced ⊢
      rw [hblock'] at hplaced' ⊢
      refine ⟨hsame.value, k + 1, hsame.twins hset h.confidence h.volume fun _ => ⟨hplaced, hplaced', ?_⟩⟩
      rw [decodeBlock_mag, decodeBlock_mag]
      intro i hi hold bin hbin
      refine hcells i hi hold bin ?_
      have hfft := (sameArrays_decodeBlock g mode mDecoding t S).fft
      unfold SpectralAnalysis.mSpecSize at hbin
      rwa [hfft] at hbin
    · rw [if_neg hlast] at htoken htoken'
      obtain ⟨hnone, hplaced⟩ := htoken
      obtain ⟨hnone', hplaced'⟩ := htoken'
      rw [hnone, hnone']
      exact ⟨rfl, k, hset, fun _ => ⟨hplaced, hplaced', hcells⟩, h.confidence, h.volume⟩
  · -- every frame ends a block without frames
    have hhalf : S.mSizeBlockCircularBuffer / 2 = 0 := by
      rw [hset.size]
      omega
    have hhalf' : S'.mSizeBlockCircularBuffer / 2 = 0 := by
      rw [hset.size']
      omega
    have hblock : AnalyzeToken g mode mDecoding t frame A = decodeBlock g mode mDecoding t S :=
      if_pos (hhalf ▸ Nat.zero_le _)
    have hblock' : AnalyzeToken g mode mDecoding t' frame A' = decodeBlock g mode mDecoding t' S' :=
      if_pos (hhalf' ▸ Nat.zero_le _)
    have hsame : SameBlock g mode mDecoding S t S' t' :=
      hset.block hin fun j hj => absurd hj (by omega)
    rw [hblock, hblock']
    exact ⟨hsame.value, k, hsame.twins hset h.confidence h.volume fun h2 => absurd h2 hN⟩

end Twins

theorem sameArrays_AnalyzeToken (g : Globals F) (mode mDecoding : ℤ) (t : ℕ) (frame : ℕ → F) (A : Analysis F) :
    SameArrays A (A.AnalyzeToken g mode mDecoding t frame).2 := by
  have hstored : SameArrays A (storeSpectrum frame A).advanceWritePos :=
    ⟨rfl, rfl, rfl, rfl, rfl, fun _ => rfl, fun _ => rfl, fun _ => rfl⟩
  show SameArrays A (if _ then _ else _ : ℤ × Analysis F).2
  split
  · exact hstored.trans (sameArrays_decodeBlock g mode mDecoding t (storeSpectrum frame A).advanceWritePos)
  · exact hstored

end Analysis

/-! ## Two decoders -/

namespace Core

open SpectralAnalysis Checked
open Analysis (dedicated dedicated_multiTone dedicated_lanes)

variable {F D : Type} [Doubles D] [Floats F D] [CFFTOoura F]

/-- A frame changes none of the settings. -/
theorem sameArrays_step {c : DecoderClass} (hc : c.isMultiTone = true) {g : Globals F} {frame : ℕ → F} {C C' : Core F}
    {r : Option ℤ} (h : step c g frame C = (r, C')) : SameArrays C.analysis C'.analysis := by
  have hstored : SameArrays C.analysis (C.analysis.storeSpectrum frame) :=
    ⟨rfl, rfl, rfl, rfl, rfl, fun _ => rfl, fun _ => rfl, fun _ => rfl⟩
  rcases step_cases h with ⟨-, ret, A, hA, hcase⟩ | ⟨-, -, -, hA | hA⟩ | ⟨-, -, rfl⟩
  · rw [AnalyzeStartTokens_multiTone hc] at hA
    have hsearch : SameArrays C.analysis A := by
      have hmodes := sameArrays_searchModes c.lanes 0 (C.analysis.storeSpectrum frame)
      rw [show Analysis.searchModes c.lanes 0 (C.analysis.storeSpectrum frame) = (ret, A) from hA] at hmodes
      exact hstored.trans hmodes
    split at hcase
    · obtain ⟨-, rfl⟩ := hcase
      simp only [begin, if_pos hc]
      exact ⟨hsearch.mode, hsearch.fft, hsearch.window, hsearch.factors, hsearch.size, hsearch.bins, hsearch.beginBin,
        hsearch.endBin⟩
    · obtain ⟨-, rfl⟩ := hcase
      exact hsearch
  · rw [hA, AnalyzeToken_multiTone hc]
    exact Analysis.sameArrays_AnalyzeToken g _ _ _ frame C.analysis
  · rw [hA]
    exact .rfl'
  · simp only [finish, if_pos hc]
    exact ⟨rfl, rfl, rfl, rfl, rfl, fun _ => rfl, fun _ => rfl, fun _ => rfl⟩

theorem sameArrays_run {c : DecoderClass} (hc : c.isMultiTone = true) {C C' : Core F}
    {log : List (Move F × Option ℤ)} (h : Run (move c) C log C') : SameArrays C.analysis C'.analysis := by
  refine move_rule h (fun C' => SameArrays C.analysis C'.analysis) .rfl' ?_ fun _ hsame => hsame
  intro g frame C1 hsame
  exact hsame.trans (sameArrays_step hc rfl)

/-- The decoder of all modes and that of mode `t`, `m` frames and `k` blocks into a message. -/
structure Twins (t N E E' m k : ℕ) (C C' : Core F) : Prop where
  decoding : C'.mDecoding = C.mDecoding
  message : 1 ≤ C.mDecoding
  mode : C'.mDecodingMode = t
  transform : 2 ≤ C.analysis.mSpectralAnalysis.mFftSize
  reads : ∀ g, FixedBins g → AllInSpectrum (dedicated t) g C.analysis
  analysis : Analysis.Twins N E E' 0 t m k C.analysis C'.analysis

section Twins

variable {t N E E' m k : ℕ} {C C' : Core F} {g : Globals F} {frame : ℕ → F}

/-- A frame of a message that is not complete. -/
theorem step_reads {c : DecoderClass} (hc : c.isMultiTone = true) (h1 : 1 ≤ C.mDecoding)
    (h18 : C.mDecoding ≤ numMessageTokens) : step c g frame C =
      let res := C.analysis.AnalyzeToken g (tokenMode c C) C.mDecoding (tokenLane c C) frame
      if res.1 ≥ 0 then (some res.1, C.append res.1 res.2) else (none, { C with analysis := res.2 }) := by
  unfold step
  rw [if_neg (by omega), if_pos ⟨by omega, h18⟩, AnalyzeToken_multiTone hc]

omit [Doubles D] [Floats F D] [CFFTOoura F] in
/-- Where the tokens of a mode are read. -/
theorem token_dedicated (ht : t < 3) (C : Core F) : tokenMode (dedicated t) C = t ∧ tokenLane (dedicated t) C = 0 ∧
    laneMode (dedicated t) 0 = t := by
  interval_cases t <;> exact ⟨rfl, rfl, rfl⟩

/-- Every frame of a message returns the same. -/
theorem Twins.step (h : Twins t N E E' m k C C') (ht : t < 3) (hlocal : RdftLocal F) (hg : FixedBins g)
    {r : Option ℤ} {C1 : Core F} (hstep : step (dedicated t) g frame C = (r, C1)) :
    ∃ C1', Core.step .AllMultiTone g frame C' = (r, C1') ∧
      (r ≠ some (-3) → ∃ k', Twins t N E E' (m + 1) k' C1 C1') ∧
      C1'.analysis.mConfidenceEnergyRatios = C1.analysis.mConfidenceEnergyRatios ∧
      C1'.analysis.mReceivedOxysVolume = C1.analysis.mReceivedOxysVolume := by
  have hc := dedicated_multiTone t
  by_cases h18 : C.mDecoding ≤ numMessageTokens
  · obtain ⟨hmode, hlane, hlaneMode⟩ := token_dedicated ht C
    have hmode' : tokenMode .AllMultiTone C' = t := h.mode
    have hlane' : tokenLane .AllMultiTone C' = t := by
      show C'.mDecodingMode.toNat = t
      rw [h.mode, Int.toNat_natCast]
    have hin := (h.reads g hg 0 (by rw [dedicated_lanes]; decide)).2 C.mDecoding
    rw [hlaneMode] at hin
    have hsame := sameArrays_step hc hstep
    have htoken := h.analysis.token hlocal h.transform hin frame
    rw [step_reads hc h.message h18, hmode, hlane] at hstep
    rw [step_reads rfl (h.decoding ▸ h.message) (h.decoding ▸ h18), hmode', hlane', h.decoding]
    generalize C.analysis.AnalyzeToken g t C.mDecoding 0 frame = res at htoken hstep
    generalize C'.analysis.AnalyzeToken g t C.mDecoding t frame = res' at htoken
    obtain ⟨ret, A⟩ := res
    obtain ⟨ret', A'⟩ := res'
    obtain ⟨hret, k', htwins⟩ := htoken
    obtain rfl : ret' = ret := hret
    have htransform : 2 ≤ C1.analysis.mSpectralAnalysis.mFftSize := hsame.fft ▸ h.transform
    have hreads : ∀ g, FixedBins g → AllInSpectrum (dedicated t) g C1.analysis := fun g hg => (h.reads g hg).mono hsame
    by_cases hvalue : ret' ≥ 0
    · obtain ⟨rfl, rfl⟩ := Prod.mk.inj ((if_pos hvalue).symm.trans hstep)
      refine ⟨_, if_pos hvalue, fun _ => ⟨k', congrArg (· + 1) h.decoding, ?_, h.mode, htransform, hreads, htwins⟩,
        htwins.confidence, htwins.volume⟩
      have hmessage := h.message
      show 1 ≤ C.mDecoding + 1
      omega
    · obtain ⟨rfl, rfl⟩ := Prod.mk.inj ((if_neg hvalue).symm.trans hstep)
      exact ⟨_, if_neg hvalue, fun _ => ⟨k', rfl, h.message, h.mode, htransform, hreads, htwins⟩,
        htwins.confidence, htwins.volume⟩
  · have h18 : numMessageTokens < C.mDecoding := lt_of_not_ge h18
    rw [step_finished _ _ _ h18] at hstep
    obtain ⟨rfl, rfl⟩ := Prod.mk.inj hstep
    refine ⟨_, step_finished _ _ _ (h.decoding ▸ h18), fun hne => absurd rfl hne, ?_, ?_⟩
    · simp only [finish, if_pos hc, if_pos (show DecoderClass.AllMultiTone.isMultiTone = true from rfl),
        finishConfidence, h.analysis.confidence]
    · simp only [finish, if_pos hc, if_pos (show DecoderClass.AllMultiTone.isMultiTone = true from rfl),
        finishConfidence, h.analysis.volume]

/-- Every run of the decoder of mode `t` from the start tokens to the end of the message is one of the decoder of all
modes, with the same answers. -/
theorem Twins.run (h : Twins t N E E' m k C C') (ht : t < 3) (hlocal : RdftLocal F)
    {log : List (Move F × Option ℤ)} {C1 : Core F} (hrun : Run (move (dedicated t)) C log C1)
    (hg : ∀ g frame, .frame g frame ∈ log.map Prod.fst → FixedBins g) (hopen : some (-3) ∉ log.dropLast.map Prod.snd) :
    ∃ C1', Run (move .AllMultiTone) C' log C1' ∧
      (some (-3) ∉ log.map Prod.snd → ∃ m k, Twins t N E E' m k C1 C1') ∧
      C1'.analysis.mConfidenceEnergyRatios = C1.analysis.mConfidenceEnergyRatios ∧
      C1'.analysis.mReceivedOxysVolume = C1.analysis.mReceivedOxysVolume := by
  induction hrun with
  | nil => exact ⟨C', .nil, fun _ => ⟨m, k, h⟩, h.analysis.confidence, h.analysis.volume⟩
  | @call log C1 C2 move r hrun hmove ih =>
    rw [List.dropLast_concat] at hopen
    have hprefix : some (-3) ∉ log.dropLast.map Prod.snd := fun hmem =>
      hopen ((List.map_subset _ (List.dropLast_subset log)) hmem)
    obtain ⟨C1', hrun', htwins, hsums⟩ := ih (fun g frame hmem => hg g frame (by
      rw [List.map_append]
      exact List.mem_append_left _ hmem)) hprefix
    obtain ⟨m, k, htwins⟩ := htwins hopen
    cases move with
    | poll =>
      obtain ⟨rfl, rfl⟩ := Prod.mk.inj (Option.some.inj hmove)
      refine ⟨{ C1' with mDecodedValues := [] }, .call hrun' rfl, fun _ => ⟨m, k, ?_⟩, hsums⟩
      exact ⟨htwins.decoding, htwins.message, htwins.mode, htwins.transform, htwins.reads, htwins.analysis⟩
    | frame g frame =>
      have hstep : Core.step (dedicated t) g frame C1 = (r, C2) := Option.some.inj hmove
      obtain ⟨C2', hstep', htwins', hsums'⟩ := htwins.step ht hlocal (hg g frame (by simp)) hstep
      refine ⟨C2', .call hrun' (congrArg some hstep'), fun hnext => ?_, hsums'⟩
      obtain ⟨k', htwins'⟩ := htwins' fun hr => hnext (by simp [hr])
      exact ⟨_, k', htwins'⟩

end Twins

/-! ## From the start tokens on -/

omit [CFFTOoura F] in
/-- A mode has the same tones in both decoders, whatever the globals were when they were built. -/
theorem laneFreq_twins {t : ℕ} (ht : t < 3) (g g' : Globals F) (windowSize : ℕ) :
    Decoder.laneFreq (dedicated t) (g.init windowSize) 0 = Decoder.laneFreq .AllMultiTone (g'.init windowSize) t := by
  interval_cases t <;> rfl

/-- With the start tokens the sums over the blocks begin anew. -/
theorem start_sums {c : DecoderClass} (hc : c.isMultiTone = true) {g : Globals F} {frame : ℕ → F} {C C' : Core F}
    (h : step c g frame C = (some (-2), C')) : C'.analysis.mConfidenceEnergyRatios = Floats.lit 0 ∧
      C'.analysis.mReceivedOxysVolume = Floats.lit 0 := by
  have h0 : C.mDecoding = 0 := idle_of_start (congrArg Prod.fst h)
  rcases step_cases h with ⟨-, ret, A, -, hcase⟩ | ⟨hd, -⟩ | ⟨hd, -⟩
  · split at hcase
    · obtain ⟨-, rfl⟩ := hcase
      simp only [begin, if_pos hc]
      exact ⟨rfl, rfl⟩
    · exact absurd hcase.1 (by simp)
  · exact absurd h0 hd
  · exact absurd h0 hd

section Begin

variable {t : ℕ} {mem mem' : Decoder F} {memRS memRS' : ReedSolomon} {g g' gs : Globals F} {samplingRate : F}
  {windowSize : ℕ} {log log' : List (Move F × Option ℤ)} {C0 C0' C C' : Core F} {frame : ℕ → F}

/-- Two decoders that report a start of mode `t`. -/
theorem twins_begin (ht : t < 3) (hwindow : 2 ≤ windowSize)
    (hreads : ∀ gs, FixedBins gs → AllInSpectrum (dedicated t) gs
      (Decoder.new mem memRS (dedicated t) g samplingRate windowSize).core.analysis)
    (hrun : Run (move (dedicated t)) (Decoder.new mem memRS (dedicated t) g samplingRate windowSize).core log C0)
    (hrun' : Run (move .AllMultiTone) (Decoder.new mem' memRS' .AllMultiTone g' samplingRate windowSize).core log' C0')
    (hstart : step (dedicated t) gs frame C0 = (some (-2), C))
    (hstart' : step .AllMultiTone gs frame C0' = (some (-2), C')) (hmode : C'.mDecodingMode = t) :
    Twins t C.analysis.mSizeBlockCircularBuffer C.analysis.mWritePosInBlockCircularBuffer
      C'.analysis.mWritePosInBlockCircularBuffer 0 0 C C' := by
  have hc := dedicated_multiTone t
  have hsame := (sameArrays_run hc hrun).trans (sameArrays_step hc hstart)
  have hsame' := (sameArrays_run rfl hrun').trans (sameArrays_step rfl hstart')
  have hbegun := step_started hc (congrArg Prod.fst hstart)
  have hbegun' := step_started rfl (congrArg Prod.fst hstart')
  rw [hstart] at hbegun
  rw [hstart'] at hbegun'
  have hlane : tokenLane (dedicated t) C = 0 := (token_dedicated ht C).2.1
  have hlane' : tokenLane .AllMultiTone C' = t := by
    show C'.mDecodingMode.toNat = t
    rw [hmode, Int.toNat_natCast]
  have hsize : C'.analysis.mSizeBlockCircularBuffer = C.analysis.mSizeBlockCircularBuffer := by
    rw [hsame.size, hsame'.size]
    rfl
  have hplaced : Analysis.MessageBegins 0 C.analysis :=
    ⟨hbegun.wrapped, hlane ▸ hbegun.read, hbegun.start, hbegun.acc⟩
  have hplaced' : Analysis.MessageBegins t C'.analysis :=
    ⟨hbegun'.wrapped, by
      have hread := hbegun'.read
      rwa [hlane'] at hread, hbegun'.start, hbegun'.acc⟩
  obtain ⟨hbins, hbegin, hend⟩ :=
    Decoder.newAnalysis_bins mem.core.analysis hc (g.init windowSize) samplingRate windowSize
    (show 0 < (dedicated t).lanes by rw [dedicated_lanes]; decide)
  obtain ⟨hbins', hbegin', hend'⟩ := Decoder.newAnalysis_bins mem'.core.analysis (c := .AllMultiTone) rfl
    (g'.init windowSize) samplingRate windowSize (show t < 3 from ht)
  have hfreq := laneFreq_twins ht g g' windowSize
  have hsums := start_sums hc hstart
  have hsums' := start_sums rfl hstart'
  have hnew := sameTransform_new mem.core.analysis.mSpectralAnalysis mem'.core.analysis.mSpectralAnalysis
    .kEnergySpectrum windowSize (Decoder.hopSize samplingRate)
  have hset : Analysis.SameSettings C.analysis.mSizeBlockCircularBuffer 0 t
      (Decoder.new mem memRS (dedicated t) g samplingRate windowSize).core.analysis
      (Decoder.new mem' memRS' .AllMultiTone g' samplingRate windowSize).core.analysis := by
    refine ⟨hsame.size.symm, hsame.size.symm, hnew, fun i hi => ?_, ?_, ?_⟩
    · exact (hbins' i hi).trans ((congrArg _ (by rw [hfreq])).trans (hbins i hi).symm)
    · exact hbegin'.trans ((congrArg _ (by rw [hfreq])).trans hbegin.symm)
    · exact hend'.trans ((congrArg _ (by rw [hfreq])).trans hend.symm)
  refine ⟨hbegun'.decoding.trans hbegun.decoding.symm, le_of_eq hbegun.decoding.symm, hmode, ?_,
    fun gs hgs => (hreads gs hgs).mono hsame, hset.mono hsame hsame', fun hN => ⟨hplaced.placed hN, ?_,
      fun i hi => absurd hi (Nat.not_lt_zero i)⟩, hsums'.1.trans hsums.1.symm, hsums'.2.trans hsums.2.symm⟩
  · rw [hsame.fft]
    exact hwindow
  · have hplaced := hplaced'.placed (hsize ▸ hN)
    rwa [hsize] at hplaced

/-- From a start of mode `t` that both report, the decoder of all modes reads what the decoder of that mode reads. -/
theorem read_together (hlocal : RdftLocal F) (ht : t < 3) (hwindow : 2 ≤ windowSize)
    (hreads : ∀ gs, FixedBins gs → AllInSpectrum (dedicated t) gs
      (Decoder.new mem memRS (dedicated t) g samplingRate windowSize).core.analysis)
    (hrun : Run (move (dedicated t)) (Decoder.new mem memRS (dedicated t) g samplingRate windowSize).core log C0)
    (hrun' : Run (move .AllMultiTone) (Decoder.new mem' memRS' .AllMultiTone g' samplingRate windowSize).core log' C0')
    (hstart : step (dedicated t) gs frame C0 = (some (-2), C))
    (hstart' : step .AllMultiTone gs frame C0' = (some (-2), C')) (hmode : C'.mDecodingMode = t)
    {later : List (Move F × Option ℤ)} {C1 : Core F} (hlater : Run (move (dedicated t)) C later C1)
    (hg : ∀ g frame, .frame g frame ∈ later.map Prod.fst → FixedBins g)
    (hopen : some (-3) ∉ later.dropLast.map Prod.snd) :
    ∃ C1', Run (move .AllMultiTone) C' later C1' ∧
      C1'.analysis.mConfidenceEnergyRatios = C1.analysis.mConfidenceEnergyRatios ∧
      C1'.analysis.mReceivedOxysVolume = C1.analysis.mReceivedOxysVolume := by
  have htwins := twins_begin ht hwindow hreads hrun hrun' hstart hstart' hmode
  obtain ⟨C1', hrun1, -, hsums⟩ := htwins.run ht hlocal hlater hg hopen
  exact ⟨C1', hrun1, hsums⟩

end Begin

end Core

open Core Checked SpectralAnalysis
open Analysis (dedicated)

theorem reads_dedicated {t : ℕ} (ht : t < 3) (mem : Decoder ℝ) (memRS : ReedSolomon) (g : Globals ℝ) {gs : Globals ℝ}
    (hgs : FixedBins gs) :
    AllInSpectrum (dedicated t) gs (Decoder.new mem memRS (dedicated t) g (44100 : ℝ) 2048).core.analysis := by
  have hrate : (0 : ℝ) < 44100 := by norm_num
  have hW := windowSizeFor_pos (44100 : ℝ)
  obtain ⟨haudible, hnonAudible, hcompression⟩ := fits_44100
  rw [← windowSizeFor_44100]
  interval_cases t
  · exact (one_lane (c := .AudibleMultiTone) rfl rfl mem memRS g gs hrate hW hgs.audible fun _ => rfl).2
      ((audible_corners hrate).2 haudible)
  · exact (one_lane (c := .NonAudibleMultiTone) rfl rfl mem memRS g gs hrate hW hgs.nonAudible fun _ => rfl).2
      ((hop_corners (by norm_num) (by decide) hrate).2 hnonAudible)
  · exact (one_lane (c := .CompressionMultiTone) rfl rfl mem memRS g gs hrate hW hgs.compression fun _ => rfl).2
      ((hop_corners (by norm_num) (by decide) hrate).2 hcompression)

/-- At 44100 Hz, whatever the arithmetic, with the tones inside the spectrum: two
decoders that report a start of mode `t` with the same frame give the same answers to the same frames, up to the end of
the message, with the same confidence and the same volume. -/
theorem same_message {F D : Type} [Doubles D] [Floats F D] [CFFTOoura F] (hlocal : RdftLocal F) {t : ℕ} (ht : t < 3)
    {mem mem' : Decoder F} {memRS memRS' : ReedSolomon} {g g' : Globals F}
    (hreads : ∀ gs, FixedBins gs → AllInSpectrum (dedicated t) gs
      (Decoder.new mem memRS (dedicated t) g (Floats.lit 44100) 2048).core.analysis)
    {log log' : List (Move F × Option ℤ)} {C0 C0' C C' : Core F}
    (hrun : Run (move (dedicated t)) (Decoder.new mem memRS (dedicated t) g (Floats.lit 44100) 2048).core log C0)
    (hrun' : Run (move .AllMultiTone) (Decoder.new mem' memRS' .AllMultiTone g' (Floats.lit 44100) 2048).core log' C0')
    {gs : Globals F} {frame : ℕ → F} (hstart : step (dedicated t) gs frame C0 = (some (-2), C))
    (hstart' : step .AllMultiTone gs frame C0' = (some (-2), C')) (hmode : C'.mDecodingMode = t)
    {later : List (Move F × Option ℤ)} {C1 : Core F} (hlater : Run (move (dedicated t)) C later C1)
    (hg : ∀ g frame, .frame g frame ∈ later.map Prod.fst → FixedBins g)
    (hopen : some (-3) ∉ later.dropLast.map Prod.snd) :
    ∃ C1', Run (move .AllMultiTone) C' later C1' ∧
      C1'.analysis.mConfidenceEnergyRatios = C1.analysis.mConfidenceEnergyRatios ∧
      C1'.analysis.mReceivedOxysVolume = C1.analysis.mReceivedOxysVolume :=
  read_together hlocal ht (by decide) hreads hrun hrun' hstart hstart' hmode hlater hg hopen

/-- The chord once more: both decoders report a start with its frame 34, and frame 35 is the first of the message. -/
theorem same_message_chord : ∃ (C C' : Core ℝ) (frame : ℕ → ℝ) (r : Option ℤ) (C1 C1' : Core ℝ),
    C.mDecoding = 1 ∧ C'.mDecodingMode = 0 ∧ step .AudibleMultiTone initial frame C = (r, C1) ∧
      Run (move .AllMultiTone) C' [(.frame initial frame, r)] C1' ∧
      C1'.analysis.mConfidenceEnergyRatios = C1.analysis.mConfidenceEnergyRatios ∧
      C1'.analysis.mReceivedOxysVolume = C1.analysis.mReceivedOxysVolume := by
  have hsound := chord_sounds (d := 267) (by decide) (by decide) (by decide) (fun _ => 0)
  obtain ⟨hstarts, htokens⟩ := chord_tokens
  obtain ⟨log, C0, T0, hrunT, hrun, -, hstage, -⟩ := Trace.stage_run hstarts htokens hsound 34 (by decide)
  obtain ⟨C, T, hC, hT, hbegun⟩ := hstage.start hstarts (hsound 34)
  obtain ⟨r, C1, T1, hC1, -, -⟩ := hbegun.step hstarts htokens (hsound 35) (by decide)
  obtain ⟨A0, hreading⟩ := hbegun.message (le_refl 35) (by decide)
  have hdecoding : C.mDecoding = 1 := hreading.onTime.decoding
  have hmode : T.core.mDecodingMode = 0 := hbegun.follows.mode (by omega)
  have hrate : (Floats.lit 44100 : ℝ) = 44100 := by
    rw [lit_eq]
    norm_num
  have hrun : Run (move (dedicated 0)) (Decoder.new default default (dedicated 0) initial (Floats.lit 44100) 2048).core
      log C0 := by
    rw [hrate]
    exact hrun
  have hrun' : Run (move .AllMultiTone)
      (Decoder.new default default .AllMultiTone initial (Floats.lit 44100) 2048).core log T0.core := by
    rw [hrate]
    exact Trace.run_core hrunT
  have hreads : ∀ gs, FixedBins gs → AllInSpectrum (dedicated 0) gs
      (Decoder.new default default (dedicated 0) initial (Floats.lit 44100 : ℝ) 2048).core.analysis := by
    rw [hrate]
    exact fun gs hgs => reads_dedicated (by decide) _ _ _ hgs
  have hstart' : step .AllMultiTone initial _ T0.core = (some (-2), T.core) := Option.some.inj (Trace.move_core hT)
  have hlater : Run (move (dedicated 0)) C ([] ++ [(.frame initial _, r)]) C1 := .call .nil (congrArg some hC1)
  obtain ⟨C1', hrun1, hsums⟩ := same_message rdftLocal_real (by decide) hreads hrun hrun' hC hstart' hmode hlater (by
    intro g frame hmem
    obtain ⟨rfl, -⟩ : g = initial ∧ _ := by simpa using hmem
    exact ⟨rfl, rfl, rfl⟩) (by simp)
  exact ⟨C, T.core, _, r, C1, C1', hdecoding, hmode, hC1, hrun1, hsums⟩

/-- In exact arithmetic the tones of every mode are inside the spectrum. -/
theorem same_message_exact {t : ℕ} (ht : t < 3) {mem mem' : Decoder ℝ} {memRS memRS' : ReedSolomon} {g g' : Globals ℝ}
    {log log' : List (Move ℝ × Option ℤ)} {C0 C0' C C' : Core ℝ}
    (hrun : Run (move (dedicated t)) (Decoder.new mem memRS (dedicated t) g 44100 2048).core log C0)
    (hrun' : Run (move .AllMultiTone) (Decoder.new mem' memRS' .AllMultiTone g' 44100 2048).core log' C0')
    {gs : Globals ℝ} {frame : ℕ → ℝ} (hstart : step (dedicated t) gs frame C0 = (some (-2), C))
    (hstart' : step .AllMultiTone gs frame C0' = (some (-2), C')) (hmode : C'.mDecodingMode = t)
    {later : List (Move ℝ × Option ℤ)} {C1 : Core ℝ} (hlater : Run (move (dedicated t)) C later C1)
    (hg : ∀ g frame, .frame g frame ∈ later.map Prod.fst → FixedBins g)
    (hopen : some (-3) ∉ later.dropLast.map Prod.snd) :
    ∃ C1', Run (move .AllMultiTone) C' later C1' ∧
      C1'.analysis.mConfidenceEnergyRatios = C1.analysis.mConfidenceEnergyRatios ∧
      C1'.analysis.mReceivedOxysVolume = C1.analysis.mReceivedOxysVolume :=
  read_together rdftLocal_real ht (by decide)
    (fun _ hgs => reads_dedicated ht mem memRS g hgs) hrun hrun' hstart hstart'
    hmode hlater hg hopen

end Undertone
