import Undertone.Tuning

/-!
# Hops keep the tokens apart

Where `ComputeStats` looks for a tone moves with the position of the symbol, by 0, 1 or 2 hops. Two such places are
read apart when the distance of the two tones is three bins off every multiple of the hop up to 2 (`apart_iff`). The
hop is a number of bins and the distance of two tones a number of Hz, which was chosen for 44100 Hz: up to which
sampling rates the places stay apart depends on the mode (`hopping_iff`).
-/

namespace Undertone

open Globals

/-! ## Windows -/

/-- The bins that `ComputeStats` reads for the tone `idx`. -/
noncomputable def evaluatedBins (g : Globals ℝ) (d : Decoder ℝ) (mDecoding idx : ℕ) : Finset ℤ :=
  Finset.Icc (evaluatedBin g d mDecoding idx - Analysis.mBinWidth)
    (evaluatedBin g d mDecoding idx + Analysis.mBinWidth)

/-- No bin is read for two tones, or for one tone in two phases of the hop. -/
def Apart (g : Globals ℝ) (d : Decoder ℝ) : Prop :=
  ∀ idx < 9, ∀ idx' < 9, ∀ k k' : ℕ, (idx, k % 3) ≠ (idx', k' % 3) →
    Disjoint (evaluatedBins g d k idx) (evaluatedBins g d k' idx')

/-- The same for an object and the globals. -/
def HopsApart (st : OxyCore ℝ × Globals ℝ) : Prop := Apart st.2 st.1.mDecoder

theorem disjoint_around {a b : ℤ} :
    Disjoint (Finset.Icc (a - 1) (a + 1)) (Finset.Icc (b - 1) (b + 1)) ↔ 3 ≤ |a - b| := by
  rw [Finset.disjoint_left]
  constructor
  · intro h
    by_contra hclose
    have hlt := abs_lt.1 (not_le.1 hclose)
    refine h (a := if a ≤ b then b - 1 else b + 1) (Finset.mem_Icc.2 ?_) (Finset.mem_Icc.2 ?_)
    · split <;> omega
    · split <;> omega
  · intro h x hx hx'
    have h1 := Finset.mem_Icc.1 hx
    have h2 := Finset.mem_Icc.1 hx'
    rcases le_abs.1 h with h | h <;> omega

/-- The tone at bin `c idx`, with hops of `n` bins. -/
theorem apart_iff {g : Globals ℝ} {d : Decoder ℝ} {c : ℕ → ℤ} {n : ℤ} (hn : 3 ≤ n)
    (hbin : ∀ idx < 9, ∀ k, evaluatedBin g d (k : ℕ) idx = c idx + (k % 3 : ℕ) * n)
    (hmono : ∀ i j, i < j → j < 9 → c i ≤ c j) :
    Apart g d ↔ ∀ i j, i < j → j < 9 → ∀ p : ℕ, p < 3 → 3 ≤ |c j - c i - p * n| := by
  have hdisjoint : ∀ i < 9, ∀ j < 9, ∀ k k' : ℕ, Disjoint (evaluatedBins g d k i) (evaluatedBins g d k' j) ↔
      3 ≤ |c i + (k % 3 : ℕ) * n - (c j + (k' % 3 : ℕ) * n)| := by
    intro i hi j hj k k'
    unfold evaluatedBins
    rw [hbin i hi, hbin j hj]
    exact disjoint_around
  constructor
  · intro h i j hij hj p hp
    have hpair := (hdisjoint i (by omega) j hj p 0).1
      (h i (by omega) j hj p 0 fun heq => absurd (congrArg Prod.fst heq) (by simp; omega))
    rw [Nat.mod_eq_of_lt hp, Nat.zero_mod, abs_sub_comm] at hpair
    refine hpair.trans (le_of_eq (congrArg _ ?_))
    push_cast
    ring
  · intro h
    -- of the two places, let the second be that of the higher tone
    have hlt : ∀ i j, i < j → j < 9 → ∀ k k' : ℕ, 3 ≤ |c i + (k % 3 : ℕ) * n - (c j + (k' % 3 : ℕ) * n)| := by
      intro i j hij hj k k'
      have hp := Nat.mod_lt k (show 0 < 3 by decide)
      have hq := Nat.mod_lt k' (show 0 < 3 by decide)
      generalize k % 3 = p at hp
      generalize k' % 3 = q at hq
      have hc := hmono i j hij hj
      rw [abs_sub_comm]
      by_cases hpq : q ≤ p
      · have hgap := h i j hij hj (p - q) (by omega)
        rw [Nat.cast_sub hpq] at hgap
        refine hgap.trans (le_of_eq (congrArg _ ?_))
        ring
      · have hmul : (p : ℤ) * n + n ≤ q * n := by
          have : (p : ℤ) + 1 ≤ q := by omega
          nlinarith
        rw [abs_of_nonneg (by linarith)]
        linarith
    intro i hi j hj k k' hne
    rw [hdisjoint i hi j hj]
    rcases lt_trichotomy i j with hij | rfl | hij
    · exact hlt i j hij hj k k'
    · have hphase : ((k % 3 : ℕ) : ℤ) - (k' % 3 : ℕ) ≠ 0 := fun heq => hne (by
        have : k % 3 = k' % 3 := by omega
        rw [this])
      have hone := Int.one_le_abs hphase
      have hgap : c i + (k % 3 : ℕ) * n - (c i + (k' % 3 : ℕ) * n) = ((k % 3 : ℕ) - (k' % 3 : ℕ)) * n := by ring
      rw [hgap, abs_mul, abs_of_nonneg (show 0 ≤ n by omega)]
      nlinarith
    · rw [abs_sub_comm]
      exact hlt j i hij hi k' k

/-! ## The bins of a mode -/

/-- The bin of the tone `idx` of a grid. -/
noncomputable def gridBin (first distance samplingRate : ℝ) (W idx : ℕ) : ℤ :=
  let m := Globals.round (first / (samplingRate / W)) + idx * Globals.round (distance / (samplingRate / W))
  if 0 ≤ m then m else m + 1

section Grid

variable {c : DecoderClass} {g g' : Globals ℝ} {mem : Decoder ℝ} {memRS : ReedSolomon} {first distance samplingRate : ℝ}
  {W : ℕ}

theorem mFreqsBins_grid (hc : c.isMultiTone = true) (hrate : 0 < samplingRate) (hW : 0 < W) {idx : ℕ} (hidx : idx < 9)
    (hdec : Decoder.laneFreq c (g.init W) 0 idx samplingRate W = toneGrid first distance idx samplingRate W) :
    ((Decoder.new mem memRS c g samplingRate W).core.analysis.lane 0).mFreqsBins idx =
      gridBin first distance samplingRate W idx := by
  rw [mFreqsBins_new hc _ _ _ _ _ hidx, hdec]
  exact round_toneGrid first distance idx hrate hW rfl

theorem evaluatedBin_grid (hc : c.isMultiTone = true) (hrate : 0 < samplingRate) (hW : 0 < W) {n : ℤ}
    (hn : Analysis.nBinsOffset g' c.mode = n)
    (hdec : ∀ idx : ℕ, Decoder.laneFreq c (g.init W) 0 idx samplingRate W =
      toneGrid first distance idx samplingRate W) :
    ∀ idx < 9, ∀ k : ℕ, evaluatedBin g' (.new mem memRS c g samplingRate W) k idx =
      gridBin first distance samplingRate W idx + (k % 3 : ℕ) * n := by
  intro idx hidx k
  rw [evaluatedBin, Analysis.evalToneBin_phase, mFreqsBins_grid hc hrate hW hidx (hdec idx), ← hn]
  rfl

theorem gridBin_mono (hd : 0 ≤ Globals.round (distance / (samplingRate / W))) {i j : ℕ} (hij : i ≤ j) :
    gridBin first distance samplingRate W i ≤ gridBin first distance samplingRate W j := by
  have hstep : (i : ℤ) * Globals.round (distance / (samplingRate / W)) ≤
      j * Globals.round (distance / (samplingRate / W)) :=
    mul_le_mul_of_nonneg_right (by exact_mod_cast hij) hd
  unfold gridBin
  simp only
  split <;> split <;> omega

/-- Two tones at bins that are not negative. -/
theorem gridBin_sub (hf : 0 ≤ Globals.round (first / (samplingRate / W)))
    (hd : 0 ≤ Globals.round (distance / (samplingRate / W))) (i j : ℕ) :
    gridBin first distance samplingRate W j - gridBin first distance samplingRate W i =
      ((j : ℤ) - i) * Globals.round (distance / (samplingRate / W)) := by
  have hpos : ∀ i : ℕ, 0 ≤ (i : ℤ) * Globals.round (distance / (samplingRate / W)) := fun i => by positivity
  unfold gridBin
  simp only
  rw [if_pos (add_nonneg hf (hpos j)), if_pos (add_nonneg hf (hpos i))]
  ring

/-- Tones that are not at negative bins: no tone is `k` tones above another and as far as it a hop. -/
theorem apart_multiples (hc : c.isMultiTone = true) (hrate : 0 < samplingRate) (hW : 0 < W) {n : ℤ} (h3 : 3 ≤ n)
    (hn : Analysis.nBinsOffset g' c.mode = n)
    (hdec : ∀ idx : ℕ, Decoder.laneFreq c (g.init W) 0 idx samplingRate W = toneGrid first distance idx samplingRate W)
    (hf : 0 ≤ Globals.round (first / (samplingRate / W))) (hd : 0 ≤ Globals.round (distance / (samplingRate / W))) :
    Apart g' (.new mem memRS c g samplingRate W) ↔ ∀ k : ℕ, 1 ≤ k → k ≤ 8 → ∀ p : ℕ, p < 3 →
      3 ≤ |k * Globals.round (distance / (samplingRate / W)) - p * n| := by
  rw [apart_iff h3 (evaluatedBin_grid hc hrate hW hn hdec) fun i j hij _ => gridBin_mono hd hij.le]
  constructor
  · intro h k h1 h8 p hp
    have hk := h 0 k h1 (by omega) p hp
    rwa [gridBin_sub hf hd, Nat.cast_zero, sub_zero] at hk
  · intro h i j hij hj p hp
    have hk := h (j - i) (by omega) (by omega) p hp
    rwa [Nat.cast_sub hij.le, ← gridBin_sub hf hd] at hk

end Grid

/-! ## Multiples of the distance of two tones -/

theorem mul_ge {k : ℕ} {d : ℤ} (h1 : 1 ≤ k) (hd : 0 ≤ d) : d ≤ k * d :=
  le_mul_of_one_le_left hd (by exact_mod_cast h1)

/-- Beyond two hops and three bins every multiple is far enough. -/
theorem multiples_beyond {d n : ℤ} (hn : 0 ≤ n) (hd : 2 * n + 3 ≤ d) {k : ℕ} (h1 : 1 ≤ k) {p : ℕ} (hp : p < 3) :
    3 ≤ |k * d - p * n| := by
  have hk := mul_ge h1 (show 0 ≤ d by omega)
  have hpn : p * n ≤ 2 * n := mul_le_mul_of_nonneg_right (by omega) hn
  rw [le_abs]
  omega

/-- Hops of 3 and of 4 bins: two hops and three bins are needed. -/
theorem multiples_small {d n : ℤ} (h3 : n = 3 ∨ n = 4) (hd : 0 ≤ d) :
    (∀ k : ℕ, 1 ≤ k → k ≤ 8 → ∀ p : ℕ, p < 3 → 3 ≤ |k * d - p * n|) ↔ 2 * n + 3 ≤ d := by
  constructor
  · intro h
    have h0 := le_abs.1 (h 1 le_rfl (by decide) 0 (by decide))
    have h1 := le_abs.1 (h 1 le_rfl (by decide) 1 (by decide))
    have h2 := le_abs.1 (h 1 le_rfl (by decide) 2 (by decide))
    push_cast at h0 h1 h2
    omega
  · intro h k h1 _ p hp
    exact multiples_beyond (by omega) h h1 hp

/-- Hops of 12 bins leave two gaps for shorter distances. -/
theorem multiples_twelve {d : ℤ} (hd : 0 ≤ d) :
    (∀ k : ℕ, 1 ≤ k → k ≤ 8 → ∀ p : ℕ, p < 3 → 3 ≤ |k * d - p * 12|) ↔ d = 9 ∨ 15 ≤ d ∧ d ≤ 21 ∨ 27 ≤ d := by
  constructor
  · intro h
    have hall : ∀ k : ℕ, 1 ≤ k → k ≤ 8 → (3 ≤ k * d ∨ 3 ≤ -(k * d)) ∧ (3 ≤ k * d - 12 ∨ 3 ≤ -(k * d - 12)) ∧
        (3 ≤ k * d - 24 ∨ 3 ≤ -(k * d - 24)) := by
      intro k h1 h8
      have h0 := le_abs.1 (h k h1 h8 0 (by decide))
      have h1' := le_abs.1 (h k h1 h8 1 (by decide))
      have h2 := le_abs.1 (h k h1 h8 2 (by decide))
      push_cast at h0 h1' h2
      omega
    have h1 := hall 1 (by decide) (by decide)
    have h2 := hall 2 (by decide) (by decide)
    have h3 := hall 3 (by decide) (by decide)
    have h4 := hall 4 (by decide) (by decide)
    push_cast at h1 h2 h3 h4
    omega
  · rintro (rfl | ⟨h15, h21⟩ | h27) k h1 h8 p hp
    · rw [le_abs]
      interval_cases k <;> interval_cases p <;> simp
    · rw [le_abs]
      by_cases hk : k = 1
      · subst hk
        interval_cases p <;> push_cast <;> omega
      · have htwo : 2 * d ≤ k * d := mul_le_mul_of_nonneg_right (by omega) (by omega)
        omega
    · exact multiples_beyond (by decide) (by omega) h1 hp

/-! ## The modes -/

/-- The distance of two neighbouring tones, which the globals keep as `3 * n` bins at 44100 Hz, in bins. -/
theorem spacing_in_bins (n : ℤ) {samplingRate : ℝ} {W : ℕ} (hW : 0 < W) (hrate : 0 < samplingRate) :
    (ofInt n : ℝ) / (ofInt W / Floats.lit 44100) * Floats.lit 3 / (samplingRate / W) =
      3 * n * (44100 / samplingRate) := by
  have hWr : (W : ℝ) ≠ 0 := by exact_mod_cast hW.ne'
  rw [ofInt_eq, ofInt_eq, lit_eq, lit_eq, Int.cast_natCast]
  push_cast
  field_simp

theorem le_round_iff {x : ℝ} (hx : 0 ≤ x) (n : ℤ) : n ≤ Globals.round x ↔ (n : ℝ) - 1 / 2 ≤ x := by
  rw [round_of_nonneg hx, Int.le_floor]
  constructor <;> intro h <;> linarith

/-- A mode whose hop and whose distance of tones are those of 44100 Hz. -/
theorem apart_small {c : DecoderClass} (hc : c.isMultiTone = true) (mem : Decoder ℝ) (memRS : ReedSolomon)
    (g g' : Globals ℝ) {samplingRate : ℝ} (hrate : 0 < samplingRate) {W : ℕ} (hW : 0 < W) {first : ℝ}
    (hfirst : 0 ≤ first)
    {n : ℤ} (h34 : n = 3 ∨ n = 4) (hn : Analysis.nBinsOffset g' c.mode = n)
    (hdec : ∀ idx : ℕ, Decoder.laneFreq c (g.init W) 0 idx samplingRate W =
      toneGrid first (ofInt n / (ofInt W / Floats.lit 44100) * Floats.lit 3) idx samplingRate W) :
    Apart g' (.new mem memRS c g samplingRate W) ↔
      ((2 * n + 3 : ℤ) : ℝ) - 1 / 2 ≤ 3 * n * (44100 / samplingRate) := by
  have hnr : (0 : ℝ) ≤ n := by
    have : 0 ≤ n := by omega
    exact_mod_cast this
  have hx : (0 : ℝ) ≤ 3 * n * (44100 / samplingRate) := by positivity
  have hspacing := spacing_in_bins n hW hrate
  have hd : 0 ≤ Globals.round ((ofInt n : ℝ) / (ofInt W / Floats.lit 44100) * Floats.lit 3 / (samplingRate / W)) := by
    rw [hspacing]
    exact round_nonneg hx
  have hf := round_nonneg (div_nonneg hfirst (div_nonneg hrate.le (Nat.cast_nonneg W)))
  rw [apart_multiples hc hrate hW (by omega) hn hdec hf hd, multiples_small h34 hd, hspacing, le_round_iff hx]

theorem apart_nonaudible (mem : Decoder ℝ) (memRS : ReedSolomon) (g : Globals ℝ) {samplingRate : ℝ}
    (hrate : 0 < samplingRate) :
    HopsApart (OxyCore.Configure mem memRS .NONAUDIBLE samplingRate g) ↔ samplingRate ≤ 50400 := by
  have hW := windowSizeFor_pos samplingRate
  unfold HopsApart OxyCore.Configure OxyCore.build
  generalize OxyCore.windowSizeFor samplingRate = W at hW
  refine (apart_small (c := .NonAudibleMultiTone) rfl mem memRS (g.init W) ((g.init W).init W) hrate hW
    (show (0 : ℝ) ≤ Floats.lit 17800 by rw [lit_eq]; norm_num) (n := 4) (Or.inr rfl) rfl fun _ => rfl).trans ?_
  rw [← mul_div_assoc, le_div_iff₀ hrate]
  push_cast
  constructor <;> intro h <;> linarith

theorem apart_compression (mem : Decoder ℝ) (memRS : ReedSolomon) (g : Globals ℝ) {samplingRate : ℝ}
    (hrate : 0 < samplingRate) :
    HopsApart (OxyCore.Configure mem memRS .COMPRESSION samplingRate g) ↔ samplingRate ≤ 793800 / 17 := by
  have hW := windowSizeFor_pos samplingRate
  unfold HopsApart OxyCore.Configure OxyCore.build
  generalize OxyCore.windowSizeFor samplingRate = W at hW
  refine (apart_small (c := .CompressionMultiTone) rfl mem memRS (g.init W) ((g.init W).init W) hrate hW
    (show (0 : ℝ) ≤ Floats.lit 14000 by rw [lit_eq]; norm_num) (n := 3) (Or.inl rfl) rfl fun _ => rfl).trans ?_
  rw [← mul_div_assoc, le_div_iff₀ hrate]
  push_cast
  constructor <;> intro h <;> linarith

/-- The distance of two neighbouring tones of the audible mode, in bins. -/
noncomputable def audibleSpacing (samplingRate : ℝ) : ℤ :=
  Globals.round (750 / (samplingRate / OxyCore.windowSizeFor samplingRate))

theorem apart_audible (mem : Decoder ℝ) (memRS : ReedSolomon) (g : Globals ℝ) {samplingRate : ℝ}
    (hrate : 0 < samplingRate) :
    HopsApart (OxyCore.Configure mem memRS .AUDIBLE samplingRate g) ↔ audibleSpacing samplingRate = 9 ∨
      15 ≤ audibleSpacing samplingRate ∧ audibleSpacing samplingRate ≤ 21 ∨ 27 ≤ audibleSpacing samplingRate := by
  have hW := windowSizeFor_pos samplingRate
  have hspacing : audibleSpacing samplingRate =
      Globals.round ((Floats.lit 750 : ℝ) / (samplingRate / OxyCore.windowSizeFor samplingRate)) := by
    rw [lit_eq]
    rfl
  rw [hspacing]
  unfold HopsApart OxyCore.Configure OxyCore.build
  generalize OxyCore.windowSizeFor samplingRate = W at hW
  have hpos : ∀ q : ℚ, 0 ≤ q → 0 ≤ Globals.round ((Floats.lit q : ℝ) / (samplingRate / W)) := fun q hq => by
    refine round_nonneg (div_nonneg ?_ (div_nonneg hrate.le (Nat.cast_nonneg W)))
    rw [lit_eq]
    exact_mod_cast hq
  have hgrid : ∀ idx : ℕ, Decoder.laneFreq .AudibleMultiTone ((g.init W).init W) 0 idx samplingRate W =
      toneGrid (Floats.lit 3300) (Floats.lit 750) idx samplingRate W := fun _ => rfl
  refine (apart_multiples (c := .AudibleMultiTone) (g := g.init W) rfl hrate hW (n := 12) (by decide) rfl hgrid
    (hpos 3300 (by norm_num)) (hpos 750 (by norm_num))).trans ?_
  exact multiples_twelve (hpos 750 (by norm_num))

/-- The bin of the tone `idx` in the custom mode. -/
noncomputable def customGridBin (baseFreq : ℝ) (oxysSeparation : ℤ) (samplingRate : ℝ) (idx : ℕ) : ℤ :=
  gridBin baseFreq (ofInt (2 + oxysSeparation) / (ofInt (OxyCore.windowSizeFor samplingRate) / Floats.lit 44100) *
    Floats.lit 3) samplingRate (OxyCore.windowSizeFor samplingRate) idx

theorem apart_custom (mem : Decoder ℝ) (memRS : ReedSolomon) (g : Globals ℝ) {samplingRate : ℝ}
    (hrate : 0 < samplingRate) (baseFreq : ℝ) {s : ℤ} (hs : 1 ≤ s) :
    HopsApart (OxyCore.SetCustomBaseFreq mem memRS baseFreq s
      (OxyCore.Configure mem memRS .CUSTOM samplingRate g)) ↔ ∀ i j, i < j → j < 9 → ∀ p : ℕ, p < 3 →
        3 ≤ |customGridBin baseFreq s samplingRate j - customGridBin baseFreq s samplingRate i - p * (2 + s)| := by
  have hW := windowSizeFor_pos samplingRate
  have hmode : ∀ W,
      (Decoder.new mem memRS (OxyCore.decoderClass .CUSTOM) (g.init W) samplingRate W).core.mDecodingMode =
        DECODING_MODE_CUSTOM := fun _ => rfl
  unfold customGridBin HopsApart
  simp only [OxyCore.SetCustomBaseFreq, OxyCore.Configure, OxyCore.build, hmode, if_true]
  generalize OxyCore.windowSizeFor samplingRate = W at hW
  set g' : Globals ℝ := { (g.init W).init W with
    freqBaseForCustomMultiTone := baseFreq
    oxysSeparationForCustomMultiTone := s }
  have hsr : (0 : ℝ) ≤ (2 + s : ℤ) := by exact_mod_cast (show 0 ≤ 2 + s by omega)
  have hd : 0 ≤ Globals.round ((ofInt (2 + s) : ℝ) / (ofInt W / Floats.lit 44100) * Floats.lit 3 /
      (samplingRate / W)) := by
    rw [spacing_in_bins (2 + s) hW hrate]
    exact round_nonneg (by positivity)
  have hgrid : ∀ idx : ℕ, Decoder.laneFreq .CustomMultiTone ((g'.init W).init W) 0 idx samplingRate W =
      toneGrid baseFreq (ofInt (2 + s) / (ofInt W / Floats.lit 44100) * Floats.lit 3) idx samplingRate W := fun _ => rfl
  exact apart_iff (by omega) (evaluatedBin_grid (c := .CustomMultiTone) (g := g'.init W) rfl hrate hW rfl hgrid)
    fun i j hij _ => gridBin_mono hd hij.le

/-- At 44100 Hz the tones of the custom mode are three hops apart. -/
theorem customGridBin_44100 (baseFreq : ℝ) {s : ℤ} (hs : 1 ≤ s) (idx : ℕ) :
    customGridBin baseFreq s 44100 idx =
      Globals.round (baseFreq / (44100 / (2048 : ℕ))) + idx * (3 * (2 + s)) +
        if 0 ≤ Globals.round (baseFreq / (44100 / (2048 : ℕ))) + idx * (3 * (2 + s)) then 0 else 1 := by
  have hspacing := custom_spacing s
  rw [if_pos (by omega)] at hspacing
  unfold customGridBin gridBin
  simp only [windowSizeFor_44100]
  rw [hspacing]
  split
  · rw [add_zero]
  · rfl

/-- There the places are apart unless the separation is 1 and the tones lie on both sides of bin 0, where the
distance of two of them is one bin less. -/
theorem custom_44100 (baseFreq : ℝ) {s : ℤ} (hs : 1 ≤ s) :
    (∀ i j, i < j → j < 9 → ∀ p : ℕ, p < 3 →
        3 ≤ |customGridBin baseFreq s 44100 j - customGridBin baseFreq s 44100 i - p * (2 + s)|) ↔
      2 ≤ s ∨ 0 ≤ Globals.round (baseFreq / (44100 / (2048 : ℕ))) ∨
        Globals.round (baseFreq / (44100 / (2048 : ℕ))) + 24 * (2 + s) < 0 := by
  simp only [customGridBin_44100 baseFreq hs]
  generalize Globals.round (baseFreq / (44100 / (2048 : ℕ))) = m
  constructor
  · intro h
    by_contra hnot
    have hone : s = 1 := by omega
    subst hone
    -- the last tone below bin 0 and the next one
    have hnext := h ((-m - 1) / 9).toNat (((-m - 1) / 9).toNat + 1) (Nat.lt_succ_self _) (by omega) 2 (by decide)
    rw [if_pos (by omega), if_neg (by omega)] at hnext
    push_cast at hnext
    rcases le_abs.1 hnext with hnext | hnext <;> omega
  · intro h i j hij hj p hp
    have hgap : 3 * (2 + s) ≤ ((j : ℤ) - i) * (3 * (2 + s)) := by
      have : (1 : ℤ) ≤ (j : ℤ) - i := by omega
      nlinarith
    have hhops : (p : ℤ) * (2 + s) ≤ 2 * (2 + s) := mul_le_mul_of_nonneg_right (by omega) (by omega)
    have hj8 : (j : ℤ) * (3 * (2 + s)) ≤ 8 * (3 * (2 + s)) := mul_le_mul_of_nonneg_right (by omega) (by omega)
    have hi0 : 0 ≤ (i : ℤ) * (3 * (2 + s)) := by positivity
    rw [sub_mul] at hgap
    rw [le_abs]
    left
    split <;> split <;> omega

/-- In exact arithmetic: up to which sampling rates the hops keep the tokens apart in the built-in modes, and for which
separations and base frequencies in the custom mode. -/
theorem hopping_iff (mem : Decoder ℝ) (memRS : ReedSolomon) (g : Globals ℝ) {samplingRate : ℝ}
    (hrate : 0 < samplingRate) :
    (HopsApart (OxyCore.Configure mem memRS .AUDIBLE samplingRate g) ↔ audibleSpacing samplingRate = 9 ∨
      15 ≤ audibleSpacing samplingRate ∧ audibleSpacing samplingRate ≤ 21 ∨ 27 ≤ audibleSpacing samplingRate) ∧
    (HopsApart (OxyCore.Configure mem memRS .NONAUDIBLE samplingRate g) ↔ samplingRate ≤ 50400) ∧
    (HopsApart (OxyCore.Configure mem memRS .COMPRESSION samplingRate g) ↔ samplingRate ≤ 793800 / 17) ∧
    ∀ (baseFreq : ℝ) (s : ℤ), 1 ≤ s →
      (HopsApart (OxyCore.SetCustomBaseFreq mem memRS baseFreq s
        (OxyCore.Configure mem memRS .CUSTOM samplingRate g)) ↔ ∀ i j, i < j → j < 9 → ∀ p : ℕ, p < 3 →
          3 ≤ |customGridBin baseFreq s samplingRate j - customGridBin baseFreq s samplingRate i - p * (2 + s)|) ∧
      (samplingRate = 44100 → (HopsApart (OxyCore.SetCustomBaseFreq mem memRS baseFreq s
        (OxyCore.Configure mem memRS .CUSTOM samplingRate g)) ↔
          2 ≤ s ∨ 0 ≤ Globals.round (baseFreq / (44100 / (2048 : ℕ))) ∨
            Globals.round (baseFreq / (44100 / (2048 : ℕ))) + 24 * (2 + s) < 0)) := by
  refine ⟨apart_audible mem memRS g hrate, apart_nonaudible mem memRS g hrate, apart_compression mem memRS g hrate, ?_⟩
  intro baseFreq s hs
  have hcustom := apart_custom mem memRS g hrate baseFreq hs
  refine ⟨hcustom, fun h44100 => ?_⟩
  subst h44100
  exact hcustom.trans (custom_44100 baseFreq hs)

/-- The compression mode at 44100 Hz. -/
theorem hopping_iff_44100 : HopsApart (OxyCore.Configure default default .COMPRESSION (44100 : ℝ) initial) :=
  (hopping_iff default default initial (show (0 : ℝ) < 44100 by norm_num)).2.2.1.2 (by norm_num)

/-- The compression mode at 48000 Hz: a tone two hops up is read together with the next tone. -/
theorem compression_48000 : ¬ HopsApart (OxyCore.Configure default default .COMPRESSION (48000 : ℝ) initial) := by
  intro h
  have hle := (apart_compression default default initial (show (0 : ℝ) < 48000 by norm_num)).1 h
  norm_num at hle

end Undertone
