import Undertone.Clock
import Undertone.OxyCore

/-!
# Where encoder and decoder tune to

In exact arithmetic: the frequency of a tone that the encoder sends, in bins, against the bin at which the decoder
looks for it. Both take the same grid of whole bins and add the hop of the position to it, the encoder in Hz and the
decoder in bins. In the custom mode the encoder adds the hop of another mode (`custom_tuning`); in the built-in modes
the hop in Hz is that of 44100 Hz at every sampling rate (`builtin_tuning`).
-/

namespace Undertone

open Globals

/-! ## Exact arithmetic -/

/-- `(int)(x + .5)` of a whole number. -/
theorem round_intCast (n : ℤ) : Globals.round (n : ℝ) = if 0 ≤ n then n else n + 1 := by
  show truncate ((n : ℝ) + ((1 / 2 : ℚ) : ℝ)) = _
  unfold truncate
  push_cast
  by_cases h : 0 ≤ n
  · have h' : (0 : ℝ) ≤ n := by exact_mod_cast h
    rw [if_pos h, if_pos (by linarith), Int.floor_eq_iff]
    constructor <;> linarith
  · have h' : (n : ℝ) ≤ -1 := by
      have : n ≤ -1 := by omega
      exact_mod_cast this
    rw [if_neg h, if_neg (by linarith), Int.ceil_eq_iff]
    push_cast
    constructor <;> linarith

/-- The grid of a mode in bins. -/
theorem toneGrid_eq (first distance : ℝ) (idx : ℤ) {samplingRate : ℝ} {W : ℕ} :
    toneGrid first distance idx samplingRate W =
      ((Globals.round (first / (samplingRate / W)) + idx * Globals.round (distance / (samplingRate / W)) : ℤ) : ℝ) *
        (samplingRate / W) := by
  have hW : (ofInt (W : ℤ) : ℝ) = W := by rw [ofInt_eq, Int.cast_natCast]
  simp only [toneGrid, ofInt_eq, Int.cast_natCast]
  push_cast
  ring

/-- The bin of a tone of the grid. -/
theorem round_toneGrid (first distance : ℝ) (idx : ℤ) {samplingRate : ℝ} (hrate : 0 < samplingRate) {W : ℕ} (hW : 0 < W)
    {m : ℤ} (hm : m = Globals.round (first / (samplingRate / W)) +
      idx * Globals.round (distance / (samplingRate / W))) :
    Globals.round (toneGrid first distance idx samplingRate W * (ofInt W / samplingRate)) =
      if 0 ≤ m then m else m + 1 := by
  have hWr : (0 : ℝ) < W := by exact_mod_cast hW
  rw [toneGrid_eq, ← hm, ← round_intCast, ofInt_eq, Int.cast_natCast]
  congr 1
  field_simp

theorem round_of_nonneg {x : ℝ} (h : 0 ≤ x) : Globals.round x = ⌊x + 1 / 2⌋ := by
  show truncate (x + ((1 / 2 : ℚ) : ℝ)) = _
  unfold truncate
  push_cast
  exact if_pos (by linarith)

theorem round_nonneg {x : ℝ} (h : 0 ≤ x) : 0 ≤ Globals.round x := by
  rw [round_of_nonneg h]
  exact Int.floor_nonneg.2 (by linarith)

theorem round_mono {x y : ℝ} (hx : 0 ≤ x) (hxy : x ≤ y) : Globals.round x ≤ Globals.round y := by
  rw [round_of_nonneg hx, round_of_nonneg (hx.trans hxy)]
  exact Int.floor_mono (by linarith)

/-! ## The two bins -/

/-- The frequency of the tone `idx` in the symbol at position `i`, in bins. -/
noncomputable def emittedBin (g : Globals ℝ) (e : Encoder ℝ) (idx : ℤ) (i : ℕ) : ℝ :=
  Encoder.hop e.cls g i (Encoder.getToneFromIdx e.cls g idx e.mSampleRate e.mWindowSize) /
    (e.mSampleRate / e.mWindowSize)

/-- The bin at which `ComputeStats` evaluates the tone `idx`. -/
noncomputable def evaluatedBin (g : Globals ℝ) (d : Decoder ℝ) (mDecoding : ℤ) (idx : ℕ) : ℤ :=
  Analysis.evalToneBin g d.core.mDecodingMode mDecoding (d.core.analysis.lane 0) idx

theorem hop_eq (c : EncoderClass) (g : Globals ℝ) {i : ℕ} (hi : 2 ≤ i) (freq : ℝ) :
    Encoder.hop c g i freq = freq + ((i - 1) % 3 : ℕ) * Encoder.freqOffset c g := by
  unfold Encoder.hop
  rw [if_pos (by omega)]
  simp only
  have h3 := Nat.mod_lt (i - 1) (show 0 < 3 by decide)
  generalize (i - 1) % 3 = p at h3
  interval_cases p
  · simp
  · simp
  · simp [lit_eq, mul_comm]

/-- The bins of the tones after construction. -/
theorem mFreqsBins_new {c : DecoderClass} (hc : c.isMultiTone = true) (mem : Decoder ℝ) (memRS : ReedSolomon)
    (g : Globals ℝ) (samplingRate : ℝ) (W : ℕ) {idx : ℕ} (hidx : idx < 9) :
    ((Decoder.new mem memRS c g samplingRate W).core.analysis.lane 0).mFreqsBins idx =
      Globals.round (Decoder.laneFreq c (g.init W) 0 idx samplingRate W * (ofInt W / samplingRate)) := by
  have hlane : (0 : ℕ) < c.lanes := by cases c <;> decide
  exact (Decoder.newAnalysis_bins mem.core.analysis hc (g.init W) samplingRate W hlane).1 idx hidx

/-- Encoder and decoder of one grid: the bins differ by the hop, and by one where the bin of the tone is negative. -/
theorem bins_differ {c : DecoderClass} (hc : c.isMultiTone = true) (ec : EncoderClass) (mem : Decoder ℝ)
    (memRS : ReedSolomon) (g g' : Globals ℝ) {W : ℕ} (hW : 0 < W) {samplingRate : ℝ} (hrate : 0 < samplingRate)
    (first distance : ℝ) {idx : ℕ} (hidx : idx < 9)
    (henc : Encoder.getToneFromIdx ec g' idx samplingRate W = toneGrid first distance idx samplingRate W)
    (hdec : Decoder.laneFreq c (g.init W) 0 idx samplingRate W = toneGrid first distance idx samplingRate W)
    {i : ℕ} (hi : 2 ≤ i) :
    emittedBin g' (.new memRS ec samplingRate W) idx i -
        evaluatedBin g' (.new mem memRS c g samplingRate W) (i - 1 : ℕ) idx =
      ((i - 1) % 3 : ℕ) * (Encoder.freqOffset ec g' / (samplingRate / W) - Analysis.nBinsOffset g' c.mode) -
        if 0 ≤ Globals.round (first / (samplingRate / W)) + idx * Globals.round (distance / (samplingRate / W))
        then 0 else 1 := by
  have hWr : (0 : ℝ) < W := by exact_mod_cast hW
  have hbin : (0 : ℝ) < samplingRate / W := div_pos hrate hWr
  set m := Globals.round (first / (samplingRate / W)) + idx * Globals.round (distance / (samplingRate / W)) with hm
  have htone : toneGrid first distance idx samplingRate W = (m : ℝ) * (samplingRate / W) := by rw [toneGrid_eq, hm]
  have hbins : ((Decoder.new mem memRS c g samplingRate W).core.analysis.lane 0).mFreqsBins idx =
      if 0 ≤ m then m else m + 1 := by
    rw [mFreqsBins_new hc _ _ _ _ _ hidx, hdec]
    exact round_toneGrid first distance idx hrate hW hm
  have hemit : emittedBin g' (.new memRS ec samplingRate W) idx i =
      m + ((i - 1) % 3 : ℕ) * (Encoder.freqOffset ec g' / (samplingRate / W)) := by
    show Encoder.hop ec g' i (Encoder.getToneFromIdx ec g' idx samplingRate W) / (samplingRate / W) = _
    rw [hop_eq _ _ hi, henc, htone]
    field_simp
  have heval : evaluatedBin g' (.new mem memRS c g samplingRate W) (i - 1 : ℕ) idx =
      (if 0 ≤ m then m else m + 1) + ((i - 1) % 3 : ℕ) * Analysis.nBinsOffset g' c.mode := by
    rw [evaluatedBin, Analysis.evalToneBin_phase, hbins]
    rfl
  rw [hemit, heval]
  generalize (i - 1) % 3 = p
  by_cases h0 : 0 ≤ m
  · rw [if_pos h0, if_pos h0]
    push_cast
    ring
  · rw [if_neg h0, if_neg h0]
    push_cast
    ring

/-! ## The built-in modes -/

theorem windowSizeFor_pos (samplingRate : ℝ) : 0 < OxyCore.windowSizeFor samplingRate := by
  unfold OxyCore.windowSizeFor
  split
  · decide
  · split
    · decide
    · split
      · decide
      · split <;> decide

theorem windowSizeFor_44100 : OxyCore.windowSizeFor (44100 : ℝ) = 2048 := by
  have h48 : Floats.eq (44100 : ℝ) (Floats.lit 48000) = false :=
    decide_eq_false (by rw [lit_eq]; norm_num)
  have h44 : Floats.eq (44100 : ℝ) (Floats.lit 44100) = true :=
    decide_eq_true (by rw [lit_eq]; norm_num)
  rw [OxyCore.windowSizeFor, h48, h44]
  rfl

namespace Decoder

theorem hopSize_44100 : hopSize (44100 : ℝ) = 256 := by
  have h : Floats.eq (44100 : ℝ) (Floats.lit 44100) = true := decide_eq_true (by rw [lit_eq]; norm_num)
  rw [hopSize, h]
  rfl

/-- The rings of frames at 44100 Hz. -/
theorem ringSize_44100 (mem : Analysis ℝ) (c : DecoderClass) (g : Globals ℝ) (W : ℕ) :
    (newAnalysis mem c g (44100 : ℝ) W).mSizeBlockCircularBuffer = 36 := by
  have htrunc : truncate ((44100 : ℝ) * durToken * Floats.lit 2 / ofInt (256 : ℕ) + Floats.lit 0.5) = (36 : ℕ) := by
    simp only [durToken, lit_eq, ofInt_eq]
    refine truncate_eq ?_ ?_
    · norm_num
    · norm_num
  show (truncate ((44100 : ℝ) * durToken * Floats.lit 2 / ofInt (hopSize (44100 : ℝ) : ℕ) + Floats.lit 0.5)).toNat = 36
  rw [hopSize_44100, htrunc]
  rfl

end Decoder

/-- A hop of `n` bins, which the globals keep in Hz for 44100 Hz, in bins of the sampling rate. -/
theorem hop_in_bins (n : ℤ) {samplingRate : ℝ} {W : ℕ} (hW : 0 < W) (hrate : 0 < samplingRate) :
    (ofInt n : ℝ) / (ofInt W / Floats.lit 44100) / (samplingRate / W) = n * (44100 / samplingRate) := by
  have hWr : (W : ℝ) ≠ 0 := by exact_mod_cast hW.ne'
  rw [ofInt_eq, ofInt_eq, lit_eq, Int.cast_natCast]
  push_cast
  field_simp

theorem grid_nonneg {first distance : ℝ} (hf : 0 ≤ first) (hd : 0 ≤ distance) {samplingRate : ℝ} {W : ℕ}
    (hrate : 0 < samplingRate) (idx : ℕ) :
    0 ≤ Globals.round (first / (samplingRate / W)) + idx * Globals.round (distance / (samplingRate / W)) := by
  have h1 := round_nonneg (div_nonneg hf (div_nonneg hrate.le (Nat.cast_nonneg W)))
  have h2 := round_nonneg (div_nonneg hd (div_nonneg hrate.le (Nat.cast_nonneg W)))
  positivity

theorem builtin_bins {c : DecoderClass} (hc : c.isMultiTone = true) {ec : EncoderClass} {mem : Decoder ℝ}
    {memRS : ReedSolomon} {g g' : Globals ℝ} {W : ℕ} (hW : 0 < W) {samplingRate : ℝ} (hrate : 0 < samplingRate)
    {first distance : ℝ} (hf : 0 ≤ first) (hd : 0 ≤ distance) {idx : ℕ} (hidx : idx < 9)
    (henc : Encoder.getToneFromIdx ec g' idx samplingRate W = toneGrid first distance idx samplingRate W)
    (hdec : Decoder.laneFreq c (g.init W) 0 idx samplingRate W = toneGrid first distance idx samplingRate W)
    {n : ℤ} (hn : 0 ≤ n) (hhz : Encoder.freqOffset ec g' = ofInt n / (ofInt W / Floats.lit 44100))
    (hbins : Analysis.nBinsOffset g' c.mode = n) {i : ℕ} (hi : 2 ≤ i) :
    |emittedBin g' (.new memRS ec samplingRate W) idx i -
        evaluatedBin g' (.new mem memRS c g samplingRate W) (i - 1 : ℕ) idx| =
      ((i - 1) % 3 : ℕ) * n * |44100 / samplingRate - 1| := by
  have hn : (0 : ℝ) ≤ n := by exact_mod_cast hn
  rw [bins_differ hc ec mem memRS g g' hW hrate first distance hidx henc hdec hi, if_pos (grid_nonneg hf hd hrate idx),
    hhz, hbins, hop_in_bins n hW hrate, sub_zero, show (n : ℝ) * (44100 / samplingRate) - n =
      n * (44100 / samplingRate - 1) by ring,
    abs_mul, abs_mul, abs_of_nonneg (Nat.cast_nonneg _), abs_of_nonneg hn, mul_assoc]

/-- In a built-in mode with hops of `n` bins the two bins are `n` times the phase times the relative distance of the
sampling rate from 44100 Hz apart. -/
theorem builtin_distance (mem : Decoder ℝ) (memRS : ReedSolomon) (g : Globals ℝ) {mode : OxyMode} {n : ℤ}
    (hmode : (mode, n) ∈ [(OxyMode.AUDIBLE, 12), (OxyMode.NONAUDIBLE, 4), (OxyMode.COMPRESSION, 3)])
    {samplingRate : ℝ} (hrate : 0 < samplingRate) {idx : ℕ} (hidx : idx < 9) {i : ℕ} (hi : 2 ≤ i) :
    let (oxying, g') := OxyCore.Configure mem memRS mode samplingRate g
    |emittedBin g' oxying.mEncoder idx i - evaluatedBin g' oxying.mDecoder (i - 1 : ℕ) idx| =
      ((i - 1) % 3 : ℕ) * n * |44100 / samplingRate - 1| := by
  simp only [OxyCore.Configure, OxyCore.build]
  have hW := windowSizeFor_pos samplingRate
  generalize OxyCore.windowSizeFor samplingRate = W at hW
  have hlit : ∀ q : ℚ, 0 ≤ q → (0 : ℝ) ≤ Floats.lit q := fun q hq => by
    rw [lit_eq]
    exact_mod_cast hq
  have hspacing : ∀ k : ℤ, 0 ≤ k → (0 : ℝ) ≤ ofInt k / (ofInt W / Floats.lit 44100) * Floats.lit 3 := fun k hk => by
    rw [ofInt_eq, ofInt_eq, lit_eq, lit_eq, Int.cast_natCast]
    have : (0 : ℝ) ≤ k := by exact_mod_cast hk
    push_cast
    positivity
  simp only [List.mem_cons, Prod.mk.injEq, List.not_mem_nil, or_false] at hmode
  rcases hmode with ⟨rfl, rfl⟩ | ⟨rfl, rfl⟩ | ⟨rfl, rfl⟩
  · exact builtin_bins rfl hW hrate (hlit 3300 (by norm_num)) (hlit 750 (by norm_num)) hidx rfl rfl (n := 12)
      (by decide) rfl rfl hi
  · exact builtin_bins rfl hW hrate (hlit 17800 (by norm_num)) (hspacing 4 (by decide)) hidx rfl rfl (n := 4)
      (by decide) rfl rfl hi
  · exact builtin_bins rfl hW hrate (hlit 14000 (by norm_num)) (hspacing 3 (by decide)) hidx rfl rfl (n := 3)
      (by decide) rfl rfl hi

/-- In a built-in mode with hops of `n` bins the two bins are at most one bin apart as long as `n` times the phase times
the relative distance of the sampling rate from 44100 Hz is at most one. -/
theorem builtin_tuning (mem : Decoder ℝ) (memRS : ReedSolomon) (g : Globals ℝ) {mode : OxyMode} {n : ℤ}
    (hmode : (mode, n) ∈ [(OxyMode.AUDIBLE, 12), (OxyMode.NONAUDIBLE, 4), (OxyMode.COMPRESSION, 3)])
    {samplingRate : ℝ} (hrate : 0 < samplingRate) {idx : ℕ} (hidx : idx < 9) {i : ℕ} (hi : 2 ≤ i ∧ i ≤ 19) :
    let (oxying, g') := OxyCore.Configure mem memRS mode samplingRate g
    |emittedBin g' oxying.mEncoder idx i - evaluatedBin g' oxying.mDecoder (i - 1 : ℕ) idx| =
        ((i - 1) % 3 : ℕ) * n * |44100 / samplingRate - 1| ∧
      (|emittedBin g' oxying.mEncoder idx i - evaluatedBin g' oxying.mDecoder (i - 1 : ℕ) idx| ≤ Analysis.mBinWidth ↔
        ((i - 1) % 3 : ℕ) * n * |44100 / samplingRate - 1| ≤ 1) := by
  have hwidth : ((Analysis.mBinWidth : ℕ) : ℝ) = 1 := Nat.cast_one
  have h := builtin_distance mem memRS g hmode hrate hidx hi.1
  revert h
  simp only
  intro h
  rw [hwidth]
  exact ⟨h, by rw [h]⟩

/-- The non-audible mode at 48000 Hz, in the third phase: the bins are less than one apart. -/
theorem builtin_tuning_48000 :
    let (oxying, g') := OxyCore.Configure default default .NONAUDIBLE (48000 : ℝ) initial
    |emittedBin g' oxying.mEncoder (7 : ℕ) 6 - evaluatedBin g' oxying.mDecoder (6 - 1 : ℕ) 7| = 13 / 20 ∧
      |emittedBin g' oxying.mEncoder (7 : ℕ) 6 - evaluatedBin g' oxying.mDecoder (6 - 1 : ℕ) 7| ≤
        Analysis.mBinWidth := by
  have h := builtin_tuning default default initial (show (OxyMode.NONAUDIBLE, (4 : ℤ)) ∈ _ by decide)
    (show (0 : ℝ) < 48000 by norm_num) (show 7 < 9 by decide) (show 2 ≤ 6 ∧ 6 ≤ 19 by decide)
  have hdistance : (((6 - 1) % 3 : ℕ) * (4 : ℤ) * |44100 / 48000 - 1| : ℝ) = 13 / 20 := by
    rw [abs_of_nonpos (by norm_num)]
    norm_num
  revert h
  simp only
  rintro ⟨h, hiff⟩
  rw [hdistance] at h hiff
  exact ⟨h, hiff.2 (by norm_num)⟩

/-- The audible mode at 48000 Hz: the tones of the second message symbol are almost two bins off. -/
theorem audible_48000 :
    let (oxying, g') := OxyCore.Configure default default .AUDIBLE (48000 : ℝ) initial
    ¬ |emittedBin g' oxying.mEncoder (0 : ℕ) 3 - evaluatedBin g' oxying.mDecoder (3 - 1 : ℕ) 0| ≤
      Analysis.mBinWidth := by
  have h := builtin_distance default default initial (show (OxyMode.AUDIBLE, (12 : ℤ)) ∈ _ by decide)
    (show (0 : ℝ) < 48000 by norm_num) (show 0 < 9 by decide) (show 2 ≤ 3 by decide)
  have hfar : ¬ (((3 - 1) % 3 : ℕ) * (12 : ℤ) * |44100 / 48000 - 1| : ℝ) ≤ (Analysis.mBinWidth : ℕ) := by
    rw [show Analysis.mBinWidth = 1 from rfl, abs_of_neg (by norm_num)]
    norm_num
  rw [← h] at hfar
  exact hfar

/-! ## The custom mode -/

/-- The distance of two neighbouring tones in bins. -/
theorem custom_spacing (s : ℤ) :
    Globals.round ((ofInt (2 + s) : ℝ) / (ofInt (2048 : ℕ) / Floats.lit 44100) * Floats.lit 3 / (44100 / (2048 : ℕ))) =
      if 0 ≤ 3 * (2 + s) then 3 * (2 + s) else 3 * (2 + s) + 1 := by
  rw [← round_intCast, ofInt_eq, ofInt_eq, lit_eq, lit_eq]
  congr 1
  push_cast
  field_simp

/-- Both frequencies of the token at position `i` lie within `mBinWidth` of the bins at which they are looked for. -/
def Tuned (g : Globals ℝ) (e : Encoder ℝ) (d : Decoder ℝ) (token : ℤ) (i : ℕ) : Prop :=
  let freqs := e.mCurrentFreqs g token i
  let tones := getIdxsFromIdx token
  let binToHz := e.mSampleRate / e.mWindowSize
  |freqs.1 / binToHz - evaluatedBin g d (i - 1 : ℕ) tones.1.toNat| ≤ Analysis.mBinWidth ∧
    |freqs.2 / binToHz - evaluatedBin g d (i - 1 : ℕ) tones.2.toNat| ≤ Analysis.mBinWidth

/-- The tones of a token are among the nine. -/
theorem getIdxsFromIdx_range (token : ℤ) :
    (0 ≤ (getIdxsFromIdx token).1 ∧ (getIdxsFromIdx token).1 < 9) ∧
      0 ≤ (getIdxsFromIdx token).2 ∧ (getIdxsFromIdx token).2 < 9 := by
  have hall : ∀ pair ∈ tonePairs, (0 ≤ pair.1 ∧ pair.1 < 9) ∧ 0 ≤ pair.2 ∧ pair.2 < 9 := by decide
  unfold getIdxsFromIdx
  split
  · by_cases h : token.toNat < tonePairs.length
    · rw [List.getD_eq_getElem _ _ h]
      exact hall _ (List.getElem_mem h)
    · rw [List.getD_eq_default _ _ (by omega)]
      decide
  · decide

theorem tuned_iff {g : Globals ℝ} {e : Encoder ℝ} {d : Decoder ℝ} {token : ℤ} {i : ℕ} :
    Tuned g e d token i ↔
      ∀ idx : ℕ, (idx : ℤ) = (getIdxsFromIdx token).1 ∨ (idx : ℤ) = (getIdxsFromIdx token).2 →
        |emittedBin g e idx i - evaluatedBin g d (i - 1 : ℕ) idx| ≤ Analysis.mBinWidth := by
  obtain ⟨⟨h1, -⟩, h2, -⟩ := getIdxsFromIdx_range token
  constructor
  · rintro ⟨hfst, hsnd⟩ idx (h | h)
    · rw [h, ← Int.toNat_natCast idx, h]
      exact hfst
    · rw [h, ← Int.toNat_natCast idx, h]
      exact hsnd
  · intro h
    have hfst := h (getIdxsFromIdx token).1.toNat (Or.inl (Int.toNat_of_nonneg h1))
    have hsnd := h (getIdxsFromIdx token).2.toNat (Or.inr (Int.toNat_of_nonneg h2))
    rw [Int.toNat_of_nonneg h1] at hfst
    rw [Int.toNat_of_nonneg h2] at hsnd
    exact ⟨hfst, hsnd⟩

/-- The bin of the tone `idx` on the custom grid. -/
noncomputable def customBin (baseFreq : ℝ) (s : ℤ) (idx : ℕ) : ℤ :=
  Globals.round (baseFreq / (44100 / (2048 : ℕ))) + idx * if 0 ≤ 3 * (2 + s) then 3 * (2 + s) else 3 * (2 + s) + 1

/-- The custom mode: the encoder hops by 4 bins, the decoder by `2 + s`. -/
theorem custom_bins (mem : Decoder ℝ) (memRS : ReedSolomon) (g : Globals ℝ) (baseFreq : ℝ) (s : ℤ) {idx : ℕ}
    (hidx : idx < 9) {i : ℕ} (hi : 2 ≤ i) :
    let (oxying, g') := OxyCore.SetCustomBaseFreq mem memRS baseFreq s (OxyCore.Configure mem memRS .CUSTOM 44100 g)
    emittedBin g' oxying.mEncoder idx i - evaluatedBin g' oxying.mDecoder (i - 1 : ℕ) idx =
      (((i - 1) % 3 : ℕ) * (2 - s) - if 0 ≤ customBin baseFreq s idx then 0 else 1 : ℤ) := by
  have hW := windowSizeFor_44100
  have hmode :
      (Decoder.new mem memRS (OxyCore.decoderClass .CUSTOM) (g.init 2048) (44100 : ℝ) 2048).core.mDecodingMode =
        DECODING_MODE_CUSTOM := rfl
  simp only [OxyCore.SetCustomBaseFreq, OxyCore.Configure, OxyCore.build, hW, hmode, if_true]
  set g' : Globals ℝ := { (g.init 2048).init 2048 with
    freqBaseForCustomMultiTone := baseFreq
    oxysSeparationForCustomMultiTone := s }
  have hdiff := bins_differ (c := .CustomMultiTone) rfl .CustomMultiTone mem memRS (g'.init 2048)
    ((g'.init 2048).init 2048) (by decide : 0 < 2048) (show (0 : ℝ) < 44100 by norm_num) baseFreq
    (ofInt (2 + s) / (ofInt (2048 : ℕ) / Floats.lit 44100) * Floats.lit 3) hidx rfl rfl hi
  have hhop : Encoder.freqOffset .CustomMultiTone ((g'.init 2048).init 2048) / (44100 / (2048 : ℕ)) = (4 : ℤ) :=
    (hop_in_bins 4 (by decide) (by norm_num)).trans (by norm_num)
  have hoffset : Analysis.nBinsOffset ((g'.init 2048).init 2048) DecoderClass.CustomMultiTone.mode = 2 + s := rfl
  rw [custom_spacing, hhop, hoffset] at hdiff
  refine hdiff.trans ?_
  unfold customBin
  generalize (i - 1) % 3 = p
  split
  · push_cast
    ring
  · push_cast
    ring

theorem custom_within (mem : Decoder ℝ) (memRS : ReedSolomon) (g : Globals ℝ) (baseFreq : ℝ) (s : ℤ) {idx : ℕ}
    (hidx : idx < 9) {i : ℕ} (hi : 2 ≤ i) :
    let (oxying, g') := OxyCore.SetCustomBaseFreq mem memRS baseFreq s (OxyCore.Configure mem memRS .CUSTOM 44100 g)
    |emittedBin g' oxying.mEncoder idx i - evaluatedBin g' oxying.mDecoder (i - 1 : ℕ) idx| ≤ Analysis.mBinWidth ↔
      |((i - 1) % 3 : ℕ) * (2 - s) - if 0 ≤ customBin baseFreq s idx then 0 else 1| ≤ 1 := by
  have h := custom_bins mem memRS g baseFreq s hidx hi
  revert h
  simp only
  intro h
  rw [h, show Analysis.mBinWidth = 1 from rfl, ← Int.cast_abs]
  norm_cast

/-- In the custom mode at 44100 Hz, encoder and decoder meet for every token at every position exactly where the
separation is 2, or is 1 and the whole grid lies below bin 0. -/
theorem custom_tuning (mem : Decoder ℝ) (memRS : ReedSolomon) (g : Globals ℝ) (baseFreq : ℝ) (oxysSeparation : ℤ) :
    let (oxying, g') := OxyCore.SetCustomBaseFreq mem memRS baseFreq oxysSeparation
      (OxyCore.Configure mem memRS .CUSTOM 44100 g)
    (∀ token : ℤ, 0 ≤ token → token < 32 → ∀ i, 2 ≤ i → i ≤ 19 →
        Tuned g' oxying.mEncoder oxying.mDecoder token i) ↔
      oxysSeparation = 2 ∨ oxysSeparation = 1 ∧ Globals.round (baseFreq / (44100 / (2048 : ℕ))) + 72 < 0 := by
  have hwithin := fun {idx : ℕ} (hidx : idx < 9) {i : ℕ} (hi : 2 ≤ i) =>
    custom_within mem memRS g baseFreq oxysSeparation hidx hi
  revert hwithin
  simp only
  intro hwithin
  constructor
  · intro h
    -- token 7 has the lowest and the highest tone, position 3 the largest hop
    have h7 := tuned_iff.1 (h 7 (by decide) (by decide) 3 (by decide) (by decide))
    have hlow := (hwithin (show 0 < 9 by decide) (show 2 ≤ 3 by decide)).1 (h7 0 (Or.inl rfl))
    have hhigh := (hwithin (show 8 < 9 by decide) (show 2 ≤ 3 by decide)).1 (h7 8 (Or.inr rfl))
    rw [abs_le] at hlow hhigh
    have hs : oxysSeparation = 2 ∨ oxysSeparation = 1 := by
      revert hlow
      split <;> omega
    rcases hs with rfl | rfl
    · exact Or.inl rfl
    · refine Or.inr ⟨rfl, lt_of_not_ge fun hr => ?_⟩
      rw [if_pos (show 0 ≤ customBin baseFreq 1 8 from hr)] at hhigh
      omega
  · intro h token _ _ i hi _
    obtain ⟨⟨-, h1⟩, -, h2⟩ := getIdxsFromIdx_range token
    refine tuned_iff.2 fun idx hidx => ?_
    have hidx9 : idx < 9 := by omega
    refine (hwithin hidx9 hi).2 ?_
    have hp := Nat.mod_lt (i - 1) (show 0 < 3 by decide)
    generalize (i - 1) % 3 = p at hp
    rw [abs_le]
    rcases h with rfl | ⟨rfl, hr⟩
    · split <;> omega
    · have hneg : ¬ 0 ≤ customBin baseFreq 1 idx := by
        have hgrid : customBin baseFreq 1 idx = Globals.round (baseFreq / (44100 / (2048 : ℕ))) + idx * 9 := rfl
        omega
      rw [if_neg hneg]
      omega

/-- The separation that is set by default: the tones of the second message symbol are two bins off. -/
theorem default_separation :
    let (oxying, g') := OxyCore.SetCustomBaseFreq default default 12000 1
      (OxyCore.Configure default default .CUSTOM (44100 : ℝ) initial)
    ¬ Tuned g' oxying.mEncoder oxying.mDecoder 0 3 := by
  have hwithin := custom_within default default initial 12000 1 (show 0 < 9 by decide) (show 2 ≤ 3 by decide)
  revert hwithin
  simp only
  intro hwithin htuned
  have hclose := hwithin.1 (tuned_iff.1 htuned 0 (Or.inl rfl))
  have hbin : 0 ≤ customBin 12000 1 0 := by
    have h := round_nonneg (show (0 : ℝ) ≤ 12000 / (44100 / (2048 : ℕ)) by positivity)
    exact h.trans (by simp [customBin])
  rw [if_pos hbin] at hclose
  exact absurd hclose (by decide)

end Undertone
