import Undertone.Bounds
import Undertone.Tuning

/-!
# The removal of reverberation

`DeReverbToken` of the single-tone decoders, in exact arithmetic. A tone is judged on the sums of its bins in the
frames of the current half of the block ring and of the previous one, and its bins in the current half are scaled when
they are quiet and fading. The caller passes the number of bins between the first tone and the last one, the sums take
it for the index of the bin where they stop, and the scaling does not look at it. So a tone is judged on its own bins
only if they end below that number, and it is scaled once only if the bins of its neighbours are not among them
(`dereverbed_iff`).

The run over the tones is followed on the spectrogram alone: `scaleTone` is what one tone does to it.
-/

namespace Undertone

open CountedLoop Globals

namespace SingleTone

/-! ## The bins of the tones -/

/-- The bins are those that the constructor computes for a sampling rate and a window. -/
structure OnGrid (c : SingleTone ℝ) (samplingRate : ℝ) (W : ℕ) (L : Lane ℝ) : Prop where
  tone : ∀ i < mNumTones, L.mFreqsBins i =
    Globals.round (c.getFreqFromIdx i samplingRate W * (ofInt W / samplingRate))
  first : L.mBeginBin = L.mFreqsBins 0
  last : L.mEndBin = L.mFreqsBins (mNumTones - 1)

/-- A class and its parameters. -/
def Parameters (cls : DecoderClass) (c : SingleTone ℝ) : Prop :=
  (cls = .Audible ∧ c = .DecoderAudible) ∨ (cls = .NonAudible ∧ c = .DecoderNonAudible)

theorem newAnalysis_onGrid (mem : Analysis ℝ) {cls : DecoderClass} {c : SingleTone ℝ} (hc : Parameters cls c)
    (g : Globals ℝ) (samplingRate : ℝ) (W : ℕ) :
    OnGrid c samplingRate W ((Decoder.newAnalysis mem cls g samplingRate W).lane 0) := by
  have hfreq : Decoder.laneFreq cls g 0 = c.getFreqFromIdx := by
    rcases hc with ⟨rfl, rfl⟩ | ⟨rfl, rfl⟩ <;> rfl
  have hlanes : 0 < cls.lanes := by
    rcases hc with ⟨rfl, -⟩ | ⟨rfl, -⟩ <;> decide
  have hmulti : cls.isMultiTone = false := by
    rcases hc with ⟨rfl, -⟩ | ⟨rfl, -⟩ <;> rfl
  have htone : ∀ i < mNumTones, ((Decoder.newAnalysis mem cls g samplingRate W).lane 0).mFreqsBins i =
      Globals.round (c.getFreqFromIdx i samplingRate W * (ofInt W / samplingRate)) := by
    intro i hi
    simp only [Decoder.newAnalysis, if_pos hlanes, hmulti, Decoder.newLane, hfreq]
    rw [forUp_fill 0]
    exact if_pos ⟨Nat.zero_le i, hi⟩
  refine ⟨htone, ?_, ?_⟩
  · rw [htone 0 (by decide)]
    simp only [Decoder.newAnalysis, if_pos hlanes, Decoder.newLane, hfreq]
    rfl
  · rw [htone (mNumTones - 1) (by decide)]
    simp only [Decoder.newAnalysis, if_pos hlanes, hmulti, Decoder.newLane, hfreq]
    rfl

/-- The tones are the same number of bins apart, and the first one is at least as far from the bin `0`. -/
structure Spaced (L : Lane ℝ) (d : ℤ) : Prop where
  nonneg : 0 ≤ d
  le : d ≤ L.mFreqsBins 0
  tone : ∀ i < mNumTones, L.mFreqsBins i = L.mFreqsBins 0 + i * d
  first : L.mBeginBin = L.mFreqsBins 0
  last : L.mEndBin = L.mFreqsBins (mNumTones - 1)

/-- The bins on the grid of a class, counted from the first tone. -/
theorem OnGrid.bins {c : SingleTone ℝ} {samplingRate : ℝ} {W : ℕ} {L : Lane ℝ} (h : OnGrid c samplingRate W L)
    {first distance : ℝ} (hfreq : c.getFreqFromIdx = toneGrid first distance) (hfirst : 0 ≤ first)
    (hdistance : 0 ≤ distance) (hrate : 0 < samplingRate) (hW : 0 < W) {i : ℕ} (hi : i < mNumTones) :
    L.mFreqsBins i =
      Globals.round (first / (samplingRate / W)) + i * Globals.round (distance / (samplingRate / W)) := by
  rw [h.tone i hi, hfreq, round_toneGrid first distance i hrate hW rfl]
  exact if_pos (by exact_mod_cast grid_nonneg hfirst hdistance hrate i)

theorem OnGrid.spaced {c : SingleTone ℝ} {samplingRate : ℝ} {W : ℕ} {L : Lane ℝ} (h : OnGrid c samplingRate W L)
    (hc : c = .DecoderAudible ∨ c = .DecoderNonAudible) (hrate : 0 < samplingRate) (hW : 0 < W) :
    ∃ d, Spaced L d := by
  obtain ⟨first, distance, hfreq, hd, hle⟩ : ∃ first distance : ℝ,
      c.getFreqFromIdx = toneGrid first distance ∧ 0 ≤ distance ∧ distance ≤ first := by
    rcases hc with rfl | rfl
    · exact ⟨Floats.lit 3300, Floats.lit 210, rfl, by rw [lit_eq]; norm_num, by rw [lit_eq, lit_eq]; norm_num⟩
    · exact ⟨Floats.lit 16800, Floats.lit 155, rfl, by rw [lit_eq]; norm_num, by rw [lit_eq, lit_eq]; norm_num⟩
  have hbin : 0 < samplingRate / W := div_pos hrate (by exact_mod_cast hW)
  have hbins : ∀ i < mNumTones, L.mFreqsBins i =
      Globals.round (first / (samplingRate / W)) + i * Globals.round (distance / (samplingRate / W)) :=
    fun i hi => h.bins hfreq (hd.trans hle) hd hrate hW hi
  have h0 : L.mFreqsBins 0 = Globals.round (first / (samplingRate / W)) := by
    rw [hbins 0 (by decide)]
    simp
  refine ⟨Globals.round (distance / (samplingRate / W)), round_nonneg (div_nonneg hd hbin.le), ?_, ?_, h.first, h.last⟩
  · rw [h0]
    exact round_mono (div_nonneg hd hbin.le) ((div_le_div_iff_of_pos_right hbin).2 hle)
  · intro i hi
    rw [h0, hbins i hi]

/-! ## The bins in a run -/

section Settings

open Checked

variable {F D : Type} [Doubles D] [Floats F D] [CFFTOoura F]

theorem sameArrays_AnalyzeStartTokens (audioBuffer : ℕ → F) (A : Analysis F) :
    SameArrays A (AnalyzeStartTokens audioBuffer A).2 := by
  have hstats : SameArrays A (ComputeStatsStartTokens (A.storeSpectrum audioBuffer)) :=
    ⟨rfl, rfl, rfl, rfl, rfl, fun _ => rfl, fun _ => rfl, fun _ => rfl⟩
  have hmoved : ∀ A' : Analysis F, SameArrays A' A'.advanceWritePos := fun A' =>
    ⟨rfl, rfl, rfl, rfl, rfl, fun _ => rfl, fun _ => rfl, fun _ => rfl⟩
  unfold AnalyzeStartTokens
  simp only
  split
  · refine SameArrays.trans ?_ ((hmoved _).trans (sameArrays_searchLoop _ 0 _ _))
    exact hstats.trans (sameArrays_setLane 0 (fun _ => rfl) (fun _ => rfl) fun _ => rfl)
  · refine SameArrays.trans ?_ ((hmoved _).trans (sameArrays_searchLoop _ 0 _ _))
    exact hstats.trans (sameArrays_setLane 0 (fun _ => rfl) (fun _ => rfl) fun _ => rfl)

omit [Doubles D] [CFFTOoura F] in
theorem sameArrays_DeReverbToken (c : SingleTone F) (nbins : ℤ) (freqsBins : ℕ → ℤ) (A : Analysis F) :
    SameArrays A (DeReverbToken c nbins freqsBins A) := by
  refine forUp_rule (fun _ A' => SameArrays A A') (Nat.zero_le _) .rfl' ?_
  intro i A' _ _ hsame
  simp only
  split
  · exact ⟨hsame.mode, hsame.fft, hsame.window, hsame.factors, hsame.size, hsame.bins, hsame.beginBin, hsame.endBin⟩
  · exact ⟨hsame.mode, hsame.fft, hsame.window, hsame.factors, hsame.size, hsame.bins, hsame.beginBin, hsame.endBin⟩

omit [CFFTOoura F] in
theorem sameArrays_ComputeStats (c : SingleTone F) (mDecoding : ℤ) (mDecodedValues : List ℤ) (A : Analysis F) :
    SameArrays A (ComputeStats c mDecoding mDecodedValues A) := by
  refine forUp_rule (fun _ A' => SameArrays A A') (Nat.zero_le _) .rfl' ?_
  intro k A' _ _ hsame
  simp only
  refine SameArrays.trans ?_ (sameArrays_setLane 0 (fun _ => rfl) (fun _ => rfl) fun _ => rfl)
  exact ⟨hsame.mode, hsame.fft, hsame.window, hsame.factors, hsame.size, hsame.bins, hsame.beginBin, hsame.endBin⟩

theorem sameArrays_AnalyzeToken (c : SingleTone F) (mDecoding : ℤ) (mDecodedValues : List ℤ) (audioBuffer : ℕ → F)
    (A : Analysis F) : SameArrays A (AnalyzeToken c mDecoding mDecodedValues audioBuffer A).2 := by
  have hstored : SameArrays A (A.storeSpectrum audioBuffer).advanceWritePos :=
    ⟨rfl, rfl, rfl, rfl, rfl, fun _ => rfl, fun _ => rfl, fun _ => rfl⟩
  unfold AnalyzeToken
  simp only
  split
  · refine SameArrays.trans ?_ (sameArrays_consumeBlock 0 _)
    exact (hstored.trans (sameArrays_DeReverbToken _ _ _ _)).trans (sameArrays_ComputeStats _ _ _ _)
  · exact hstored

/-- A frame changes none of the settings. -/
theorem sameArrays_step {cls : DecoderClass} (hc : cls.isMultiTone = false) (g : Globals F) (frame : ℕ → F)
    (C : Core F) : SameArrays C.analysis (Core.step cls g frame C).2.analysis := by
  have hstart : SameArrays C.analysis (C.AnalyzeStartTokens cls frame).2 := by
    cases cls <;> first | exact sameArrays_AnalyzeStartTokens frame C.analysis | exact absurd hc (by decide)
  have htoken : SameArrays C.analysis (C.AnalyzeToken cls g frame).2 := by
    cases cls <;> first | exact sameArrays_AnalyzeToken _ _ _ frame C.analysis | exact absurd hc (by decide)
  unfold Core.step
  split
  · simp only
    split
    · rw [Core.begin, hc]
      exact hstart
    · exact hstart
  · split
    · simp only
      split
      · exact htoken
      · exact htoken
    · split
      · rw [Core.finish, hc]
        exact .rfl'
      · exact .rfl'

theorem sameArrays_moves {cls : DecoderClass} (hc : cls.isMultiTone = false) {C C' : Core F}
    {log : List (Core.Move F × Option ℤ)} (h : Run (Core.move cls) C log C') :
    SameArrays C.analysis C'.analysis := by
  refine Core.move_rule h (fun C' => SameArrays C.analysis C'.analysis) .rfl' ?_ fun _ hsame => hsame
  intro g frame C1 hsame
  exact hsame.trans (sameArrays_step hc g frame C1)

end Settings

/-- The bins in every state of a run. -/
theorem run_onGrid {mem : Decoder ℝ} {memRS : ReedSolomon} {cls : DecoderClass} {c : SingleTone ℝ}
    (hc : Parameters cls c) {g : Globals ℝ} {samplingRate : ℝ} {W : ℕ} {log : List (Decoder.Call ℝ × Decoder.Answer)}
    {d : Decoder ℝ} (h : Run Decoder.call (Decoder.new mem memRS cls g samplingRate W) log d) :
    OnGrid c samplingRate W (d.core.analysis.lane 0) := by
  have hmulti : cls.isMultiTone = false := by
    rcases hc with ⟨rfl, -⟩ | ⟨rfl, -⟩ <;> rfl
  obtain ⟨moves, hmoves, -⟩ := Core.run_moves h
  have hsame := sameArrays_moves hmulti hmoves
  have hgrid := newAnalysis_onGrid mem.core.analysis hc (g.init W) samplingRate W
  refine ⟨?_, ?_, ?_⟩
  · rw [hsame.bins]
    exact hgrid.tone
  · rw [hsame.bins, hsame.beginBin]
    exact hgrid.first
  · rw [hsame.bins, hsame.endBin]
    exact hgrid.last

/-! ## Sums -/

/-- The sum of `n` bins from `lo` on in frame `s` after the read position. -/
noncomputable def binSum (A : Analysis ℝ) (mag : ℕ → ℕ → ℝ) (lo : ℤ) (n s : ℕ) : ℝ :=
  ∑ j ∈ Finset.range n, cell (mag (A.blockPos 0 s)) (lo + j)

/-- Of the sums of the frames of both halves: the current half is quieter than the previous one by 2 dB, and it ends
lower than it begins. -/
def Reverberates (half : ℕ) (sum : ℕ → ℝ) : Prop :=
  (∑ s ∈ Finset.range half, sum s) / half <
      ((10 : ℚ) : ℝ) ^ ((-2 / 20 : ℚ) : ℝ) * ((∑ s ∈ Finset.range half, sum (half + s)) / half) ∧
    sum (half - 2) + sum (half - 1) < sum 0 + sum 1

/-- The sum that the code forms of the bins around `bin`. -/
noncomputable def cutSum (c : SingleTone ℝ) (nbins : ℤ) (A : Analysis ℝ) (mag : ℕ → ℕ → ℝ) (bin : ℤ) : ℕ → ℝ :=
  binSum A mag (max 0 (bin - c.binwidth)) (min nbins (bin + c.binwidth) - max 0 (bin - c.binwidth)).toNat

theorem computeBlockMagSpecSums_eq (c : SingleTone ℝ) (nbins : ℤ) (A : Analysis ℝ) (offset : ℕ) (bin : ℤ)
    (sums : List ℝ) :
    ComputeBlockMagSpecSums A offset bin c.binwidth nbins sums =
      ((∑ s ∈ Finset.range (A.mSizeBlockCircularBuffer / 2), cutSum c nbins A A.mBlockSpecMag bin (offset + s)) /
          (A.mSizeBlockCircularBuffer / 2 : ℕ),
        sums ++ (List.range (A.mSizeBlockCircularBuffer / 2)).map fun s =>
          cutSum c nbins A A.mBlockSpecMag bin (offset + s)) := by
  have hframe : ∀ s, forUp 0 (min nbins (bin + c.binwidth) - max 0 (bin - c.binwidth)).toNat (fun j sumFr =>
      sumFr + cell (A.mBlockSpecMag (A.blockPos 0 s)) (max 0 (bin - c.binwidth) + j)) (Floats.lit 0) =
        cutSum c nbins A A.mBlockSpecMag bin s := by
    intro s
    rw [forUp_add (Nat.zero_le _), lit_eq, Rat.cast_zero, zero_add, ← Finset.range_eq_Ico]
    rfl
  have hloop := forUp_rule (a := 0) (b := A.mSizeBlockCircularBuffer / 2)
    (f := fun i (st : ℝ × List ℝ) => (st.1 + cutSum c nbins A A.mBlockSpecMag bin (offset + i),
      st.2 ++ [cutSum c nbins A A.mBlockSpecMag bin (offset + i)])) (s := (Floats.lit 0, sums))
    (fun i st => st = (∑ s ∈ Finset.range i, cutSum c nbins A A.mBlockSpecMag bin (offset + s),
      sums ++ (List.range i).map fun s => cutSum c nbins A A.mBlockSpecMag bin (offset + s)))
    (Nat.zero_le _) (by simp [lit_eq]) (by
      rintro i _ - - rfl
      simp [Finset.sum_range_succ, List.range_succ])
  unfold ComputeBlockMagSpecSums
  simp only [hframe]
  rw [hloop, ofInt_eq, Int.cast_natCast]

/-! ## One tone -/

/-- The rows of the current half of the block ring. -/
def InBlock (A : Analysis ℝ) (r : ℕ) : Prop := ∃ s < A.mSizeBlockCircularBuffer / 2, r = A.blockPos 0 s

/-- The bins of a tone. -/
def InWindow (c : SingleTone ℝ) (bin : ℤ) (b : ℕ) : Prop := bin - c.binwidth ≤ b ∧ (b : ℤ) < bin + c.binwidth

open Classical in
/-- What a tone does to the spectrogram. -/
noncomputable def scaleTone (c : SingleTone ℝ) (nbins : ℤ) (A : Analysis ℝ) (bin : ℤ) (mag : ℕ → ℕ → ℝ) :
    ℕ → ℕ → ℝ := fun r b =>
  if Reverberates (A.mSizeBlockCircularBuffer / 2) (cutSum c nbins A mag bin) ∧ InBlock A r ∧ InWindow c bin b then
    mag r b * ((0.05 : ℚ) : ℝ)
  else mag r b

variable {c : SingleTone ℝ} {nbins : ℤ} {A : Analysis ℝ} {bin : ℤ} {mag : ℕ → ℕ → ℝ}

theorem scaleTone_pos (h : Reverberates (A.mSizeBlockCircularBuffer / 2) (cutSum c nbins A mag bin)) {r b : ℕ}
    (hr : InBlock A r) (hb : InWindow c bin b) : scaleTone c nbins A bin mag r b = mag r b * ((0.05 : ℚ) : ℝ) :=
  if_pos ⟨h, hr, hb⟩

theorem scaleTone_neg (h : ¬ Reverberates (A.mSizeBlockCircularBuffer / 2) (cutSum c nbins A mag bin)) :
    scaleTone c nbins A bin mag = mag := by
  funext r b
  exact if_neg fun hall => h hall.1

theorem scaleTone_row {r : ℕ} (h : ¬ InBlock A r) (b : ℕ) : scaleTone c nbins A bin mag r b = mag r b :=
  if_neg fun hall => h hall.2.1

theorem scaleTone_bin (r : ℕ) {b : ℕ} (h : ¬ InWindow c bin b) : scaleTone c nbins A bin mag r b = mag r b :=
  if_neg fun hall => h hall.2.2

/-- Different frames of the ring lie in different rows. -/
theorem blockPos_ne {A : Analysis ℝ} {s k : ℕ} (hs : s < A.mSizeBlockCircularBuffer) (hk : k < s) :
    A.blockPos 0 s ≠ A.blockPos 0 k :=
  (RingBuffer.mod_ne (Nat.le_add_right _ k) (by omega) (by omega)).symm

theorem inWindow_iff (hbin : (c.binwidth : ℤ) ≤ bin) {b : ℕ} :
    InWindow c bin b ↔ ∃ j < 2 * c.binwidth, b = (bin - c.binwidth + j).toNat := by
  constructor
  · rintro ⟨hlo, hhi⟩
    exact ⟨(b - (bin - c.binwidth)).toNat, by omega, by omega⟩
  · rintro ⟨j, hj, rfl⟩
    constructor
    · omega
    · omega

theorem attenuate_eq (A : Analysis ℝ) (hbin : (c.binwidth : ℤ) ≤ bin)
    (h : Reverberates (A.mSizeBlockCircularBuffer / 2) (cutSum c nbins A A.mBlockSpecMag bin)) :
    attenuate c.binwidth bin A = { A with mBlockSpecMag := scaleTone c nbins A bin A.mBlockSpecMag } := by
  unfold attenuate
  congr 1
  have hcols : ∀ j < 2 * c.binwidth, ∀ k < j, (bin - c.binwidth + j).toNat ≠ (bin - c.binwidth + k).toNat := by
    intro j _ k hk
    omega
  refine (forUp_block (fun s hs k hk => blockPos_ne (by omega) hk) hcols (fun x => x * Floats.lit 0.05) _).trans ?_
  funext r b
  by_cases hr : InBlock A r
  · by_cases hb : InWindow c bin b
    · rw [scaleTone_pos h hr hb]
      exact if_pos ⟨hr, (inWindow_iff hbin).1 hb⟩
    · rw [scaleTone_bin r hb]
      exact if_neg fun hall => hb ((inWindow_iff hbin).2 hall.2)
  · rw [scaleTone_row hr]
    exact if_neg fun hall => hr hall.1

/-- The decision on a tone, from the sums of the current half and of both. -/
theorem reverbFound_iff {half : ℕ} (hhalf : 2 ≤ half) (sum : ℕ → ℝ) :
    (Floats.lt ((∑ s ∈ Finset.range half, sum (0 + s)) / (half : ℕ))
        (Floats.pow (Floats.lit 10) (-Floats.lit 2 / Floats.lit 20) *
          ((∑ s ∈ Finset.range half, sum (half + s)) / (half : ℕ))) &&
      Floats.lt (Floats.lit 0)
        (([] ++ (List.range half).map fun s => sum (0 + s)).getD 0 (Floats.lit 0) +
            ([] ++ (List.range half).map fun s => sum (0 + s)).getD 1 (Floats.lit 0) -
          (([] ++ (List.range half).map fun s => sum (0 + s)).getD (half - 2) (Floats.lit 0) +
            ([] ++ (List.range half).map fun s => sum (0 + s)).getD (half - 1) (Floats.lit 0)))) = true ↔
      Reverberates half sum := by
  have hget : ∀ k < half, ([] ++ (List.range half).map fun s => sum (0 + s)).getD k (Floats.lit 0) = sum k := by
    intro k hk
    simp [List.getD, hk]
  have hratio : (Floats.pow (Floats.lit 10) (-Floats.lit 2 / Floats.lit 20) : ℝ) =
      ((10 : ℚ) : ℝ) ^ ((-2 / 20 : ℚ) : ℝ) := by
    simp only [lit_eq]
    push_cast
    rfl
  rw [hget 0 (by omega), hget 1 (by omega), hget (half - 2) (by omega), hget (half - 1) (by omega), hratio,
    Bool.and_eq_true]
  simp only [zero_add]
  apply and_congr
  · exact decide_eq_true_iff
  · refine decide_eq_true_iff.trans ?_
    rw [lit_eq, Rat.cast_zero, sub_pos]

/-- The run over the tones, on the spectrogram; the sums of the last tone are left behind. -/
theorem deReverbToken_eq (nbins : ℤ) {freqsBins : ℕ → ℤ} (hbins : ∀ i < mNumTones, (c.binwidth : ℤ) ≤ freqsBins i)
    (hsize : 8 ≤ A.mSizeBlockCircularBuffer) :
    ∃ sums, DeReverbToken c nbins freqsBins A =
      { A with
        mBlockSpecMag := forUp 0 mNumTones (fun i => scaleTone c nbins A (freqsBins i)) A.mBlockSpecMag
        mSumPerFrame := sums } := by
  refine forUp_rel (fun (A' : Analysis ℝ) mag => ∃ sums, A' = { A with mBlockSpecMag := mag, mSumPerFrame := sums })
    ⟨A.mSumPerFrame, rfl⟩ ?_
  rintro i A' mag - hi ⟨sums, hA⟩
  have hsize' : A'.mSizeBlockCircularBuffer = A.mSizeBlockCircularBuffer := by rw [hA]
  have hfound := reverbFound_iff (show 2 ≤ A'.mSizeBlockCircularBuffer / 2 by omega)
    (cutSum c nbins A' A'.mBlockSpecMag (freqsBins i))
  simp only [ComputeBlockMagSpecSumsCurrentToken, ComputeBlockMagSpecSumsLastToken, computeBlockMagSpecSums_eq]
  by_cases h : Reverberates (A'.mSizeBlockCircularBuffer / 2) (cutSum c nbins A' A'.mBlockSpecMag (freqsBins i))
  · rw [if_pos (hfound.2 h)]
    subst hA
    exact ⟨_, attenuate_eq { A with mBlockSpecMag := mag, mSumPerFrame := _ } (hbins i hi) h⟩
  · rw [if_neg fun hf => h (hfound.1 hf)]
    subst hA
    have hkept : scaleTone c nbins A (freqsBins i) mag = mag := scaleTone_neg h
    rw [hkept]
    exact ⟨_, rfl⟩

/-! ## Tones that are judged on their own bins -/

/-- The sum of the bins of a tone. -/
noncomputable def ownSum (c : SingleTone ℝ) (A : Analysis ℝ) (mag : ℕ → ℕ → ℝ) (bin : ℤ) : ℕ → ℝ :=
  binSum A mag (bin - c.binwidth) (2 * c.binwidth)

/-- `DeReverbToken` as `AnalyzeToken` calls it. -/
noncomputable def dereverb (c : SingleTone ℝ) (A : Analysis ℝ) : Analysis ℝ :=
  DeReverbToken c ((A.lane 0).mEndBin - (A.lane 0).mBeginBin + 1) (A.lane 0).mFreqsBins A

/-- Tone `i` is treated as it should be: the tones have bins in the spectrum, those of tone `i` are scaled in the
current half when they reverberate and left alone when they do not, and nothing changes outside the bins of the tones in
the current half. -/
structure Dereverbed (c : SingleTone ℝ) (i : ℕ) (A : Analysis ℝ) : Prop where
  exist : ∀ k < mNumTones, (c.binwidth : ℤ) ≤ (A.lane 0).mFreqsBins k ∧
    (A.lane 0).mFreqsBins k + c.binwidth ≤ A.mSpectralAnalysis.mSpecSize
  scaled : Reverberates (A.mSizeBlockCircularBuffer / 2) (ownSum c A A.mBlockSpecMag ((A.lane 0).mFreqsBins i)) →
    ∀ r b, InBlock A r → InWindow c ((A.lane 0).mFreqsBins i) b →
      (dereverb c A).mBlockSpecMag r b = A.mBlockSpecMag r b * ((0.05 : ℚ) : ℝ)
  kept : ¬ Reverberates (A.mSizeBlockCircularBuffer / 2) (ownSum c A A.mBlockSpecMag ((A.lane 0).mFreqsBins i)) →
    ∀ r b, InBlock A r → InWindow c ((A.lane 0).mFreqsBins i) b →
      (dereverb c A).mBlockSpecMag r b = A.mBlockSpecMag r b
  rest : ∀ r b, ¬ (InBlock A r ∧ ∃ k < mNumTones, InWindow c ((A.lane 0).mFreqsBins k) b) →
    (dereverb c A).mBlockSpecMag r b = A.mBlockSpecMag r b

theorem dereverb_mag (hbins : ∀ k < mNumTones, (c.binwidth : ℤ) ≤ (A.lane 0).mFreqsBins k)
    (hsize : 8 ≤ A.mSizeBlockCircularBuffer) :
    (dereverb c A).mBlockSpecMag = forUp 0 mNumTones (fun k =>
      scaleTone c ((A.lane 0).mEndBin - (A.lane 0).mBeginBin + 1) A ((A.lane 0).mFreqsBins k)) A.mBlockSpecMag := by
  obtain ⟨sums, hrun⟩ := deReverbToken_eq ((A.lane 0).mEndBin - (A.lane 0).mBeginBin + 1) hbins hsize
  rw [dereverb, hrun]

theorem cutSum_eq_ownSum (hbin : (c.binwidth : ℤ) ≤ bin) (hend : bin + c.binwidth ≤ nbins) :
    cutSum c nbins A mag bin = ownSum c A mag bin := by
  have hlo : max 0 (bin - c.binwidth) = bin - c.binwidth := by omega
  have hn : (min nbins (bin + c.binwidth) - (bin - c.binwidth)).toNat = 2 * c.binwidth := by omega
  rw [cutSum, hlo, hn, ownSum]

theorem cutSum_congr {mag' : ℕ → ℕ → ℝ} (h : ∀ r b, InWindow c bin b → mag r b = mag' r b) :
    cutSum c nbins A mag bin = cutSum c nbins A mag' bin := by
  funext s
  unfold cutSum binSum
  apply Finset.sum_congr rfl
  intro j hj
  have hj := Finset.mem_range.1 hj
  apply h
  constructor
  · omega
  · omega

theorem scaleTone_congr {mag' : ℕ → ℕ → ℝ} (h : ∀ r b, InWindow c bin b → mag r b = mag' r b) (r : ℕ) {b : ℕ}
    (hb : InWindow c bin b) : scaleTone c nbins A bin mag r b = scaleTone c nbins A bin mag' r b := by
  rw [scaleTone, scaleTone, cutSum_congr h, h r b hb]

section Run

variable {f : ℕ → ℤ}

/-- What lies outside the bins of the tones stays. -/
theorem run_rest {r b : ℕ} (h : ¬ (InBlock A r ∧ ∃ k < mNumTones, InWindow c (f k) b)) :
    forUp 0 mNumTones (fun i => scaleTone c nbins A (f i)) mag r b = mag r b := by
  refine forUp_rule (fun _ (m : ℕ → ℕ → ℝ) => m r b = mag r b) (Nat.zero_le _) rfl ?_
  intro k m _ hk hm
  by_cases hr : InBlock A r
  · rw [scaleTone_bin r fun hb => h ⟨hr, k, hk, hb⟩]
    exact hm
  · rw [scaleTone_row hr]
    exact hm

/-- The bins that a tone shares with no other are changed by this tone only. -/
theorem run_own {i : ℕ} (hi : i < mNumTones)
    (halone : ∀ k < mNumTones, k ≠ i → ∀ b, InWindow c (f i) b → ¬ InWindow c (f k) b) {r b : ℕ}
    (hb : InWindow c (f i) b) :
    forUp 0 mNumTones (fun i => scaleTone c nbins A (f i)) mag r b = scaleTone c nbins A (f i) mag r b := by
  have hrun := forUp_rule (f := fun i => scaleTone c nbins A (f i)) (s := mag)
    (fun k (m : ℕ → ℕ → ℝ) => ∀ r b, InWindow c (f i) b →
      m r b = if i < k then scaleTone c nbins A (f i) mag r b else mag r b)
    (Nat.zero_le _) (fun r b _ => rfl) (by
      intro k m _ hk hm r b hb
      rcases lt_trichotomy i k with hlt | rfl | hlt
      · rw [scaleTone_bin r (halone k hk (by omega) b hb), hm r b hb, if_pos hlt, if_pos (by omega)]
      · rw [if_pos (by omega)]
        refine scaleTone_congr (fun r b hb => ?_) r hb
        rw [hm r b hb, if_neg (lt_irrefl i)]
      · rw [scaleTone_bin r (halone k hk (by omega) b hb), hm r b hb, if_neg (by omega), if_neg (by omega)])
  rw [hrun r b hb, if_pos hi]

end Run

/-- Tones whose bins do not meet. -/
theorem Spaced.alone {d : ℤ} (h : Spaced (A.lane 0) d) (hd : 2 * (c.binwidth : ℤ) ≤ d) {i : ℕ} (hi : i < mNumTones) :
    ∀ k < mNumTones, k ≠ i → ∀ b, InWindow c ((A.lane 0).mFreqsBins i) b →
      ¬ InWindow c ((A.lane 0).mFreqsBins k) b := by
  rintro k hk hne b ⟨hlo, hhi⟩ ⟨hlo', hhi'⟩
  rw [h.tone i hi] at hlo hhi
  rw [h.tone k hk] at hlo' hhi'
  rcases Nat.lt_or_gt_of_ne hne with hlt | hlt
  · nlinarith
  · nlinarith

theorem dereverbed_of {d : ℤ} (h : Spaced (A.lane 0) d) (hd : 2 * (c.binwidth : ℤ) ≤ d)
    (hspec : (A.lane 0).mFreqsBins (mNumTones - 1) + c.binwidth ≤ A.mSpectralAnalysis.mSpecSize)
    (hsize : 8 ≤ A.mSizeBlockCircularBuffer) {i : ℕ} (hi : i < mNumTones)
    (hend : (A.lane 0).mFreqsBins i + c.binwidth ≤ (A.lane 0).mEndBin - (A.lane 0).mBeginBin + 1) :
    Dereverbed c i A := by
  have hbins : ∀ k < mNumTones, (c.binwidth : ℤ) ≤ (A.lane 0).mFreqsBins k := by
    intro k hk
    have hle := h.le
    have hpos : 0 ≤ k * d := mul_nonneg (Nat.cast_nonneg k) h.nonneg
    rw [h.tone k hk]
    omega
  have hmag := dereverb_mag hbins hsize
  refine ⟨fun k hk => ⟨hbins k hk, ?_⟩, fun hrev r b hr hb => ?_, fun hrev r b hr hb => ?_, fun r b hout => ?_⟩
  · have hle : (k : ℤ) * d ≤ (mNumTones - 1 : ℕ) * d :=
      mul_le_mul_of_nonneg_right (by exact_mod_cast Nat.le_pred_of_lt hk) h.nonneg
    rw [h.tone k hk]
    rw [h.tone (mNumTones - 1) (by decide)] at hspec
    omega
  · rw [hmag, run_own hi (h.alone hd hi) hb]
    exact scaleTone_pos (by rwa [cutSum_eq_ownSum (hbins i hi) hend]) hr hb
  · rw [hmag, run_own hi (h.alone hd hi) hb, scaleTone_neg (by rwa [cutSum_eq_ownSum (hbins i hi) hend])]
  · rw [hmag, run_rest hout]

/-! ## Spectrograms that show the other tones -/

/-- The frame after the read position that lies in row `r`. -/
def frameOf (A : Analysis ℝ) (r : ℕ) : ℕ :=
  (r + (A.mSizeBlockCircularBuffer -
    (A.lane 0).mReadPosInBlockCircularBuffer % A.mSizeBlockCircularBuffer)) % A.mSizeBlockCircularBuffer

theorem frameOf_blockPos {s : ℕ} (hs : s < A.mSizeBlockCircularBuffer) : frameOf A (A.blockPos 0 s) = s := by
  have hlt := Nat.mod_lt (A.lane 0).mReadPosInBlockCircularBuffer (show 0 < A.mSizeBlockCircularBuffer by omega)
  unfold frameOf Analysis.blockPos
  generalize (A.lane 0).mReadPosInBlockCircularBuffer = pos at hlt
  generalize A.mSizeBlockCircularBuffer = n at hs hlt
  have hsum : pos + s + (n - pos % n) = s + n * (pos / n + 1) := by
    have hdiv := Nat.div_add_mod pos n
    rw [Nat.mul_add, Nat.mul_one]
    omega
  rw [Nat.mod_add_mod, hsum, Nat.add_mul_mod_self_left, Nat.mod_eq_of_lt hs]

/-- Two loud frames, silence in the rest of the current half, and a louder previous half. -/
noncomputable def fading (half s : ℕ) : ℝ := if s < 2 then 1 else if s < half then 0 else ((10 : ℕ) : ℝ)

theorem fading_sum {half : ℕ} (hhalf : 4 ≤ half) : ∑ s ∈ Finset.range half, fading half s = 2 := by
  have hsub : Finset.range 2 ⊆ Finset.range half := Finset.range_mono (by omega)
  rw [← Finset.sum_subset hsub]
  · simp [Finset.sum_range_succ, fading]
    norm_num
  · intro s hs hs2
    rw [Finset.mem_range] at hs hs2
    rw [fading, if_neg hs2, if_pos hs]

theorem tenth_le_ratio : (1 / 10 : ℝ) ≤ ((10 : ℚ) : ℝ) ^ ((-2 / 20 : ℚ) : ℝ) := by
  have hpow : (10 : ℝ) ^ (-1 : ℝ) ≤ (10 : ℝ) ^ (-2 / 20 : ℝ) :=
    Real.rpow_le_rpow_of_exponent_le (by norm_num) (by norm_num)
  rw [Real.rpow_neg_one] at hpow
  push_cast
  linarith

/-- Sums that fade are judged as reverberation, as long as the current half has not more bins than the previous one. -/
theorem reverberates_fading {half : ℕ} (hhalf : 4 ≤ half) {sum : ℕ → ℝ} {Q n : ℝ} (hQ : 0 < Q) (hQn : Q ≤ n)
    (hcur : ∀ s < half, sum s = fading half s * Q) (hlast : ∀ s < half, sum (half + s) = 10 * n) :
    Reverberates half sum := by
  have hhalf' : (4 : ℝ) ≤ half := by exact_mod_cast hhalf
  have hsum : ∑ s ∈ Finset.range half, sum s = 2 * Q := by
    rw [Finset.sum_congr rfl fun s hs => hcur s (Finset.mem_range.1 hs), ← Finset.sum_mul, fading_sum hhalf]
  have hsumLast : ∑ s ∈ Finset.range half, sum (half + s) = half * (10 * n) := by
    rw [Finset.sum_congr rfl fun s hs => hlast s (Finset.mem_range.1 hs), Finset.sum_const, Finset.card_range,
      nsmul_eq_mul]
  constructor
  · have hmean : half * (10 * n) / half = 10 * n := mul_div_cancel_left₀ _ (by linarith)
    rw [hsum, hsumLast, hmean, div_lt_iff₀ (by linarith)]
    have hratio := tenth_le_ratio
    calc 2 * Q < 4 * Q := by linarith
      _ ≤ n * half := by nlinarith
      _ ≤ ((10 : ℚ) : ℝ) ^ ((-2 / 20 : ℚ) : ℝ) * (10 * n) * half := by
        apply mul_le_mul_of_nonneg_right _ (by linarith)
        nlinarith
  · have hloud : ∀ s < 2, sum s = Q := by
      intro s hs
      rw [hcur s (by omega), fading, if_pos hs, one_mul]
    have hquiet : ∀ s, 2 ≤ s → s < half → sum s = 0 := by
      intro s hs hlt
      rw [hcur s hlt, fading, if_neg (by omega), if_pos hlt, zero_mul]
    rw [hloud 0 (by omega), hloud 1 (by omega), hquiet (half - 2) (by omega) (by omega),
      hquiet (half - 1) (by omega) (by omega)]
    linarith

/-! ### A tone whose bins are cut off -/

/-- Sums that are all zero do not fade. -/
theorem not_reverberates_zero {half : ℕ} {sum : ℕ → ℝ} (h : ∀ s, sum s = 0) : ¬ Reverberates half sum := by
  rintro ⟨-, hfade⟩
  simp [h] at hfade

/-- A tone above the number of bins is not seen. -/
theorem cutSum_none (h : nbins ≤ bin - c.binwidth) (s : ℕ) : cutSum c nbins A mag bin s = 0 := by
  have hn : (min nbins (bin + c.binwidth) - max 0 (bin - c.binwidth)).toNat = 0 := by omega
  rw [cutSum, hn, binSum, Finset.sum_range_zero]

/-- The spectrogram with sound in the last bin of a tone only. -/
noncomputable def topOnly (c : SingleTone ℝ) (A : Analysis ℝ) (bin : ℤ) (r b : ℕ) : ℝ :=
  if (b : ℤ) = bin + c.binwidth - 1 then fading (A.mSizeBlockCircularBuffer / 2) (frameOf A r) else 0

/-- Sums that stop below this bin see nothing. -/
theorem cutSum_topOnly {top : ℤ} (htop : nbins < top + c.binwidth) (s : ℕ) :
    cutSum c nbins A (topOnly c A top) bin s = 0 := by
  unfold cutSum binSum
  apply Finset.sum_eq_zero
  intro j hj
  have hj := Finset.mem_range.1 hj
  exact if_neg (by omega)

/-- The tone itself reverberates. -/
theorem ownSum_topOnly (hw : 0 < c.binwidth) (hbin : (c.binwidth : ℤ) ≤ bin) {s : ℕ}
    (hs : s < A.mSizeBlockCircularBuffer) :
    ownSum c A (topOnly c A bin) bin s = fading (A.mSizeBlockCircularBuffer / 2) s := by
  rw [ownSum, binSum, Finset.sum_eq_single (2 * c.binwidth - 1)]
  · have hlast : ((bin - c.binwidth + (2 * c.binwidth - 1 : ℕ)).toNat : ℤ) = bin + c.binwidth - 1 := by omega
    rw [cell, topOnly, if_pos hlast, frameOf_blockPos hs]
  · intro j hj hne
    have hj := Finset.mem_range.1 hj
    exact if_neg (by omega)
  · intro hlast
    rw [Finset.mem_range] at hlast
    omega

theorem run_none {f : ℕ → ℤ} (h : ∀ k < mNumTones,
      ¬ Reverberates (A.mSizeBlockCircularBuffer / 2) (cutSum c nbins A mag (f k))) :
    forUp 0 mNumTones (fun i => scaleTone c nbins A (f i)) mag = mag := by
  refine forUp_rule (fun _ m => m = mag) (Nat.zero_le _) rfl ?_
  rintro k _ - hk rfl
  exact scaleTone_neg (h k hk)

/-- What a tone that is treated as it should be leaves of a spectrogram on which it reverberates. -/
theorem Dereverbed.run {i : ℕ} (h : Dereverbed c i { A with mBlockSpecMag := mag })
    (hsize : 8 ≤ A.mSizeBlockCircularBuffer)
    (hrev : Reverberates (A.mSizeBlockCircularBuffer / 2) (ownSum c A mag ((A.lane 0).mFreqsBins i))) {r b : ℕ}
    (hr : InBlock A r) (hb : InWindow c ((A.lane 0).mFreqsBins i) b) :
    forUp 0 mNumTones (fun k =>
      scaleTone c ((A.lane 0).mEndBin - (A.lane 0).mBeginBin + 1) A ((A.lane 0).mFreqsBins k)) mag r b =
        mag r b * ((0.05 : ℚ) : ℝ) := by
  have hmag := dereverb_mag (fun k hk => (h.exist k hk).1) hsize
  exact (congrFun (congrFun hmag r) b).symm.trans (h.scaled hrev r b hr hb)

/-- A tone with bins beyond the number of bins is missed when the sound is there. -/
theorem not_dereverbed_topOnly (hw : 0 < c.binwidth) (hsize : 8 ≤ A.mSizeBlockCircularBuffer) {i : ℕ}
    (hi : i < mNumTones)
    (hend : (A.lane 0).mEndBin - (A.lane 0).mBeginBin + 1 < (A.lane 0).mFreqsBins i + c.binwidth) :
    ¬ Dereverbed c i { A with mBlockSpecMag := topOnly c A ((A.lane 0).mFreqsBins i) } := by
  intro h
  have hbin : (c.binwidth : ℤ) ≤ (A.lane 0).mFreqsBins i := (h.exist i hi).1
  have hrev : Reverberates (A.mSizeBlockCircularBuffer / 2)
      (ownSum c A (topOnly c A ((A.lane 0).mFreqsBins i)) ((A.lane 0).mFreqsBins i)) := by
    refine reverberates_fading (by omega) one_pos le_rfl ?_ ?_
    · intro s hs
      rw [ownSum_topOnly hw hbin (by omega), mul_one]
    · intro s hs
      rw [ownSum_topOnly hw hbin (by omega), fading, if_neg (by omega), if_neg (by omega), Nat.cast_ofNat, mul_one]
  obtain ⟨top, htop⟩ : ∃ top : ℕ, (top : ℤ) = (A.lane 0).mFreqsBins i + c.binwidth - 1 :=
    ⟨((A.lane 0).mFreqsBins i + c.binwidth - 1).toNat, by omega⟩
  have hscaled := h.run hsize hrev ⟨0, by omega, rfl⟩ (b := top) ⟨by omega, by omega⟩
  rw [run_none fun k _ => not_reverberates_zero (cutSum_topOnly hend)] at hscaled
  have hloud : topOnly c A ((A.lane 0).mFreqsBins i) (A.blockPos 0 0) top = 1 := by
    rw [topOnly, if_pos htop, frameOf_blockPos (by omega), fading, if_pos (by omega)]
  rw [hloud] at hscaled
  norm_num at hscaled

/-! ### Tones whose bins meet -/

/-- A spectrogram that is the same fading sound in all bins, each bin of the current half scaled by its factor. -/
structure Faded (A : Analysis ℝ) (m : ℕ → ℕ → ℝ) (q : ℕ → ℝ) : Prop where
  pos : ∀ b, 0 < q b
  le : ∀ b, q b ≤ 1
  cur : ∀ s < A.mSizeBlockCircularBuffer / 2, ∀ b,
    m (A.blockPos 0 s) b = fading (A.mSizeBlockCircularBuffer / 2) s * q b
  last : ∀ s < A.mSizeBlockCircularBuffer / 2, ∀ b, m (A.blockPos 0 (A.mSizeBlockCircularBuffer / 2 + s)) b = 10

/-- Any number of its bins reverberate. -/
theorem Faded.reverberates {m : ℕ → ℕ → ℝ} {q : ℕ → ℝ} (h : Faded A m q) (hsize : 8 ≤ A.mSizeBlockCircularBuffer)
    (lo : ℤ) {n : ℕ} (hn : 0 < n) : Reverberates (A.mSizeBlockCircularBuffer / 2) (binSum A m lo n) := by
  refine reverberates_fading (by omega) (Q := ∑ j ∈ Finset.range n, q (lo + j).toNat) (n := (n : ℝ)) ?_ ?_ ?_ ?_
  · exact Finset.sum_pos (fun j _ => h.pos _) ⟨0, Finset.mem_range.2 hn⟩
  · calc ∑ j ∈ Finset.range n, q (lo + j).toNat ≤ ∑ _j ∈ Finset.range n, 1 := Finset.sum_le_sum fun j _ => h.le _
      _ = n := by simp
  · intro s hs
    rw [Finset.mul_sum]
    exact Finset.sum_congr rfl fun j _ => h.cur s hs _
  · intro s hs
    have hten : ∀ j ∈ Finset.range n,
        cell (m (A.blockPos 0 (A.mSizeBlockCircularBuffer / 2 + s))) (lo + j) = 10 := fun j _ => h.last s hs _
    rw [binSum, Finset.sum_congr rfl hten, Finset.sum_const, Finset.card_range, nsmul_eq_mul]
    ring

open Classical in
/-- The factors after a tone that reverberates. -/
noncomputable def scaledFactor (c : SingleTone ℝ) (bin : ℤ) (q : ℕ → ℝ) (b : ℕ) : ℝ :=
  if InWindow c bin b then q b * ((0.05 : ℚ) : ℝ) else q b

theorem scaledFactor_pos {q : ℕ → ℝ} {b : ℕ} (hb : InWindow c bin b) :
    scaledFactor c bin q b = q b * ((0.05 : ℚ) : ℝ) := if_pos hb

theorem scaledFactor_neg {q : ℕ → ℝ} {b : ℕ} (hb : ¬ InWindow c bin b) : scaledFactor c bin q b = q b := if_neg hb

theorem scaledFactor_range {q : ℕ → ℝ} {b : ℕ} (hpos : 0 < q b) :
    0 < scaledFactor c bin q b ∧ scaledFactor c bin q b ≤ q b := by
  by_cases hb : InWindow c bin b
  · rw [scaledFactor_pos hb]
    push_cast
    constructor
    · linarith
    · linarith
  · rw [scaledFactor_neg hb]
    exact ⟨hpos, le_rfl⟩

theorem Faded.scaled {m : ℕ → ℕ → ℝ} {q : ℕ → ℝ} (h : Faded A m q)
    (hrev : Reverberates (A.mSizeBlockCircularBuffer / 2) (cutSum c nbins A m bin)) :
    Faded A (scaleTone c nbins A bin m) (scaledFactor c bin q) := by
  constructor
  · intro b
    exact (scaledFactor_range (h.pos b)).1
  · intro b
    exact (scaledFactor_range (h.pos b)).2.trans (h.le b)
  · intro s hs b
    by_cases hb : InWindow c bin b
    · rw [scaleTone_pos hrev ⟨s, hs, rfl⟩ hb, h.cur s hs, scaledFactor_pos hb, mul_assoc]
    · rw [scaleTone_bin _ hb, h.cur s hs, scaledFactor_neg hb]
  · intro s hs b
    have hlast : ¬ InBlock A (A.blockPos 0 (A.mSizeBlockCircularBuffer / 2 + s)) := by
      rintro ⟨k, hk, heq⟩
      exact blockPos_ne (by omega) (by omega) heq
    rw [scaleTone_row hlast, h.last s hs]

/-- A tone with a bin below the number of bins scales all of its bins. -/
theorem Faded.scale {m : ℕ → ℕ → ℝ} {q : ℕ → ℝ} (h : Faded A m q) (nbins : ℤ) (hsize : 8 ≤ A.mSizeBlockCircularBuffer)
    (hw : 0 < c.binwidth) (hbin : (c.binwidth : ℤ) ≤ bin) :
    ∃ q', Faded A (scaleTone c nbins A bin m) q' ∧ (∀ b, q' b ≤ q b) ∧
      (bin - c.binwidth < nbins → ∀ b, InWindow c bin b → q' b = q b * ((0.05 : ℚ) : ℝ)) := by
  by_cases hseen : bin - c.binwidth < nbins
  · have hrev : Reverberates (A.mSizeBlockCircularBuffer / 2) (cutSum c nbins A m bin) :=
      h.reverberates hsize _ (by omega)
    exact ⟨_, h.scaled hrev, fun b => (scaledFactor_range (h.pos b)).2, fun _ b hb => scaledFactor_pos hb⟩
  · have hnone : scaleTone c nbins A bin m = m := by
      apply scaleTone_neg
      apply not_reverberates_zero
      exact cutSum_none (by omega)
    exact ⟨q, by rwa [hnone], fun b => le_rfl, fun h' => absurd h' hseen⟩

theorem faded_start (A : Analysis ℝ) (hsize : 8 ≤ A.mSizeBlockCircularBuffer) :
    Faded A (fun r _ => fading (A.mSizeBlockCircularBuffer / 2) (frameOf A r)) fun _ => 1 := by
  refine ⟨fun _ => one_pos, fun _ => le_rfl, ?_, ?_⟩
  · intro s hs b
    rw [frameOf_blockPos (by omega), mul_one]
  · intro s hs b
    rw [frameOf_blockPos (by omega), fading, if_neg (by omega), if_neg (by omega), Nat.cast_ofNat]

/-- A bin that two tones take for theirs is scaled twice. -/
theorem run_twice (nbins : ℤ) {f : ℕ → ℤ} (hbins : ∀ k < mNumTones, (c.binwidth : ℤ) ≤ f k)
    (hsize : 8 ≤ A.mSizeBlockCircularBuffer) (hw : 0 < c.binwidth) {q : ℕ → ℝ} (h : Faded A mag q) {a : ℕ}
    (ha : a + 1 < mNumTones) {b : ℕ} (hb : InWindow c (f a) b) (hb' : InWindow c (f (a + 1)) b)
    (hseen : f a - c.binwidth < nbins) (hseen' : f (a + 1) - c.binwidth < nbins) :
    forUp 0 mNumTones (fun k => scaleTone c nbins A (f k)) mag (A.blockPos 0 0) b ≤ 1 / 400 := by
  obtain ⟨q', hfaded, -, htwice⟩ := forUp_rule (f := fun k => scaleTone c nbins A (f k)) (s := mag)
    (fun k m => ∃ q : ℕ → ℝ, Faded A m q ∧ (a < k → q b ≤ 1 / 20) ∧ (a + 1 < k → q b ≤ 1 / 400))
    (Nat.zero_le mNumTones) ⟨q, h, fun hk => absurd hk (by omega), fun hk => absurd hk (by omega)⟩ (by
      rintro k m _ hk ⟨q, hm, honce, htwice⟩
      obtain ⟨q', hm', hle, hscale⟩ := hm.scale nbins hsize hw (hbins k hk)
      have hone := hm.le b
      refine ⟨q', hm', fun hak => ?_, fun hak => ?_⟩
      · rcases Nat.lt_succ_iff_lt_or_eq.1 hak with hlt | rfl
        · exact (hle b).trans (honce hlt)
        · rw [hscale hseen b hb]
          push_cast
          linarith
      · rcases Nat.lt_succ_iff_lt_or_eq.1 hak with hlt | rfl
        · exact (hle b).trans (htwice hlt)
        · have honce := honce (by omega)
          rw [hscale hseen' b hb']
          push_cast
          linarith)
  rw [hfaded.cur 0 (by omega), fading, if_pos (by omega), one_mul]
  exact htwice ha

/-- A tone whose bins meet those of a neighbour is scaled twice there. -/
theorem not_dereverbed_close {d : ℤ} (hgrid : Spaced (A.lane 0) d) (hd : d < 2 * (c.binwidth : ℤ))
    (hw : 0 < c.binwidth) (hsize : 8 ≤ A.mSizeBlockCircularBuffer) {i : ℕ} (hi : i < mNumTones)
    (hend : (A.lane 0).mFreqsBins i + c.binwidth ≤ (A.lane 0).mEndBin - (A.lane 0).mBeginBin + 1) :
    ¬ Dereverbed c i
      { A with mBlockSpecMag := fun r _ => fading (A.mSizeBlockCircularBuffer / 2) (frameOf A r) } := by
  intro h
  have hbins : ∀ k < mNumTones, (c.binwidth : ℤ) ≤ (A.lane 0).mFreqsBins k := fun k hk => (h.exist k hk).1
  have hstart := faded_start A hsize
  have hrev : Reverberates (A.mSizeBlockCircularBuffer / 2)
      (ownSum c A (fun r _ => fading (A.mSizeBlockCircularBuffer / 2) (frameOf A r)) ((A.lane 0).mFreqsBins i)) :=
    hstart.reverberates hsize _ (by omega)
  -- the neighbour below, or above for the first tone
  obtain ⟨a, ha, hai⟩ : ∃ a, a + 1 < mNumTones ∧ (i = a ∨ i = a + 1) := by
    cases i with
    | zero => exact ⟨0, by decide, Or.inl rfl⟩
    | succ a => exact ⟨a, hi, Or.inr rfl⟩
  have hstep : (A.lane 0).mFreqsBins (a + 1) = (A.lane 0).mFreqsBins a + d := by
    rw [hgrid.tone a (by omega), hgrid.tone (a + 1) ha]
    push_cast
    ring
  have hd0 := hgrid.nonneg
  obtain ⟨b, hb⟩ : ∃ b : ℕ, (b : ℤ) = (A.lane 0).mFreqsBins (a + 1) - c.binwidth :=
    ⟨((A.lane 0).mFreqsBins (a + 1) - c.binwidth).toNat, by have := hbins (a + 1) ha; omega⟩
  have hmine : InWindow c ((A.lane 0).mFreqsBins a) b := ⟨by omega, by omega⟩
  have hmine' : InWindow c ((A.lane 0).mFreqsBins (a + 1)) b := ⟨by omega, by omega⟩
  have hlow : (A.lane 0).mFreqsBins a + c.binwidth ≤ (A.lane 0).mEndBin - (A.lane 0).mBeginBin + 1 := by
    rcases hai with rfl | rfl
    · exact hend
    · omega
  have htwice := run_twice ((A.lane 0).mEndBin - (A.lane 0).mBeginBin + 1) hbins hsize hw hstart ha hmine
    hmine' (by omega) (by omega)
  have hown : InWindow c ((A.lane 0).mFreqsBins i) b := by
    rcases hai with rfl | rfl
    · exact hmine
    · exact hmine'
  rw [h.run hsize hrev ⟨0, by omega, rfl⟩ hown, frameOf_blockPos (by omega), fading, if_pos (by omega)] at htwice
  norm_num at htwice

/-! ## When a tone is treated as it should be -/

/-- Tone `i` is treated as it should be whatever the spectrogram holds. -/
def Dereverbs (c : SingleTone ℝ) (i : ℕ) (A : Analysis ℝ) : Prop :=
  ∀ mBlockSpecMag, Dereverbed c i { A with mBlockSpecMag := mBlockSpecMag }

theorem binwidth_pos {c : SingleTone ℝ} (hc : c = .DecoderAudible ∨ c = .DecoderNonAudible) :
    0 < c.binwidth := by
  rcases hc with rfl | rfl <;> decide

/-- A tone is treated as it should be, whatever the spectrogram holds, exactly when its bins end within the number of
bins that the caller passes, the bins of neighbouring tones do not meet, and those of the last tone lie in the
spectrum. -/
theorem dereverbs_iff {c : SingleTone ℝ} (hc : c = .DecoderAudible ∨ c = .DecoderNonAudible) {samplingRate : ℝ}
    (hrate : 0 < samplingRate) {W : ℕ} (hW : 0 < W) {A : Analysis ℝ} (hgrid : OnGrid c samplingRate W (A.lane 0))
    (hsize : 8 ≤ A.mSizeBlockCircularBuffer) {i : ℕ} (hi : i < mNumTones) :
    Dereverbs c i A ↔
      (A.lane 0).mFreqsBins i + c.binwidth ≤ (A.lane 0).mEndBin - (A.lane 0).mBeginBin + 1 ∧
        2 * (c.binwidth : ℤ) ≤ (A.lane 0).mFreqsBins 1 - (A.lane 0).mFreqsBins 0 ∧
          (A.lane 0).mFreqsBins (mNumTones - 1) + c.binwidth ≤ A.mSpectralAnalysis.mSpecSize := by
  obtain ⟨d, hd⟩ := hgrid.spaced hc hrate hW
  have hw := binwidth_pos hc
  have hdist : (A.lane 0).mFreqsBins 1 - (A.lane 0).mFreqsBins 0 = d := by
    rw [hd.tone 1 (by decide)]
    push_cast
    ring
  rw [hdist]
  constructor
  · intro hall
    have hend : (A.lane 0).mFreqsBins i + c.binwidth ≤ (A.lane 0).mEndBin - (A.lane 0).mBeginBin + 1 := by
      by_contra hcut
      exact not_dereverbed_topOnly hw hsize hi (not_le.1 hcut) (hall _)
    refine ⟨hend, ?_, ((hall fun _ _ => 0).exist (mNumTones - 1) (by decide)).2⟩
    by_contra hclose
    exact not_dereverbed_close hd (not_le.1 hclose) hw hsize hi hend (hall _)
  · rintro ⟨hend, hapart, hspec⟩ mBlockSpecMag
    exact dereverbed_of (A := { A with mBlockSpecMag := mBlockSpecMag }) hd hapart hspec hsize hi hend

/-- In the non-audible mode all tones lie above the bins that are summed, as long as a bin is not wider than the
distance of the tones: the spectrogram stays as it is. -/
theorem nonAudible_unchanged {samplingRate : ℝ} (hrate : 0 < samplingRate) {W : ℕ} (hW : 0 < W)
    (hbin : samplingRate / W ≤ 155) {A : Analysis ℝ} (hgrid : OnGrid .DecoderNonAudible samplingRate W (A.lane 0))
    (hsize : 8 ≤ A.mSizeBlockCircularBuffer) :
    (dereverb .DecoderNonAudible A).mBlockSpecMag = A.mBlockSpecMag := by
  have hwidth : 0 < samplingRate / W := div_pos hrate (by exact_mod_cast hW)
  have hbins : ∀ k < mNumTones, (A.lane 0).mFreqsBins k =
      Globals.round (16800 / (samplingRate / W)) + k * Globals.round (155 / (samplingRate / W)) := by
    intro k hk
    have hgrid' : (DecoderNonAudible (F := ℝ)).getFreqFromIdx = toneGrid 16800 155 := by
      have h1 : (Floats.lit 16800 : ℝ) = 16800 := by rw [lit_eq]; norm_num
      have h2 : (Floats.lit 155 : ℝ) = 155 := by rw [lit_eq]; norm_num
      rw [← h1, ← h2]
      rfl
    exact hgrid.bins hgrid' (by norm_num) (by norm_num) hrate hW hk
  have hone : 1 ≤ 155 / (samplingRate / W) := (one_le_div hwidth).2 hbin
  have hratio : 16800 / (samplingRate / W) = 16800 / 155 * (155 / (samplingRate / W)) := by
    field_simp
  have habove : 31 * Globals.round (155 / (samplingRate / W)) + 2 ≤ Globals.round (16800 / (samplingRate / W)) := by
    rw [round_of_nonneg (by linarith), round_of_nonneg (by linarith), Int.le_floor]
    have hfloor := Int.floor_le (155 / (samplingRate / W) + 1 / 2)
    push_cast
    linarith
  have hd : 0 ≤ Globals.round (155 / (samplingRate / W)) := round_nonneg (by linarith)
  have hnbins : (A.lane 0).mEndBin - (A.lane 0).mBeginBin + 1 = 31 * Globals.round (155 / (samplingRate / W)) + 1 := by
    rw [hgrid.first, hgrid.last, hbins 0 (by decide), hbins (mNumTones - 1) (by decide)]
    simp [mNumTones, numTokensAll]
  have hover : ∀ k < mNumTones, (A.lane 0).mEndBin - (A.lane 0).mBeginBin + 1 + 1 ≤ (A.lane 0).mFreqsBins k := by
    intro k hk
    have hkd : 0 ≤ k * Globals.round (155 / (samplingRate / W)) := mul_nonneg (Nat.cast_nonneg k) hd
    rw [hnbins, hbins k hk]
    omega
  have hw : (DecoderNonAudible (F := ℝ)).binwidth = 1 := rfl
  rw [dereverb_mag _ hsize]
  · apply run_none
    intro k hk
    apply not_reverberates_zero
    have := hover k hk
    exact cutSum_none (by rw [hw]; omega)
  · intro k hk
    have := hover k hk
    rw [hw]
    omega

/-! ## At 44100 Hz -/

section Audible

/-- The decoder of the audible mode as it is constructed for 44100 Hz. -/
noncomputable def audible : Analysis ℝ := (Decoder.new default default .Audible initial (44100 : ℝ) 2048).core.analysis

theorem audible_onGrid : OnGrid .DecoderAudible 44100 2048 (audible.lane 0) :=
  newAnalysis_onGrid _ (Or.inl ⟨rfl, rfl⟩) _ _ _

theorem audible_size : audible.mSizeBlockCircularBuffer = 36 := Decoder.ringSize_44100 _ _ _ _

theorem audible_bins {i : ℕ} (hi : i < mNumTones) : (audible.lane 0).mFreqsBins i = 153 + i * 10 := by
  have hfirst : Globals.round ((Floats.lit 3300 : ℝ) / (44100 / (2048 : ℕ))) = 153 := by
    rw [round_of_nonneg (by rw [lit_eq]; positivity), lit_eq, Int.floor_eq_iff]
    norm_num
  have hdistance : Globals.round ((Floats.lit 210 : ℝ) / (44100 / (2048 : ℕ))) = 10 := by
    rw [round_of_nonneg (by rw [lit_eq]; positivity), lit_eq, Int.floor_eq_iff]
    norm_num
  rw [audible_onGrid.bins rfl (by rw [lit_eq]; norm_num) (by rw [lit_eq]; norm_num) (by norm_num) (by norm_num) hi,
    hfirst, hdistance]

theorem audible_nbins : (audible.lane 0).mEndBin - (audible.lane 0).mBeginBin + 1 = 311 := by
  rw [audible_onGrid.first, audible_onGrid.last, audible_bins (by decide), audible_bins (by decide)]
  rfl

end Audible

/-- The first tone of the audible mode. -/
theorem dereverbs_audible_first : Dereverbs .DecoderAudible 0 audible := by
  refine (dereverbs_iff (Or.inl rfl) (by norm_num) (by norm_num) audible_onGrid (by rw [audible_size]; decide)
    (by decide)).2 ?_
  rw [audible_nbins, audible_bins (by decide), audible_bins (by decide), audible_bins (by decide)]
  decide

/-- The last tone of the audible mode has its bins above the 311 bins that are summed, although they lie in the
spectrum. -/
theorem audible_last_missed :
    audible.mSizeBlockCircularBuffer = 36 ∧
      (∀ k < mNumTones, 2 ≤ (audible.lane 0).mFreqsBins k ∧
        (audible.lane 0).mFreqsBins k + 2 ≤ audible.mSpectralAnalysis.mSpecSize) ∧
        ¬ Dereverbed .DecoderAudible 31 { audible with mBlockSpecMag := topOnly .DecoderAudible audible 463 } := by
  refine ⟨audible_size, fun k hk => ?_, ?_⟩
  · have hspec : audible.mSpectralAnalysis.mSpecSize = 1025 := rfl
    have hlt : k < 32 := hk
    rw [audible_bins hk, hspec]
    omega
  · have hbin : (audible.lane 0).mFreqsBins 31 = 463 := audible_bins (by decide)
    rw [← hbin]
    apply not_dereverbed_topOnly (by decide) (by rw [audible_size]; decide) (by decide)
    rw [audible_nbins, hbin]
    decide

end SingleTone

end Undertone
