import Mathlib.Analysis.Real.Pi.Bounds
import Undertone.Chunking
import Undertone.Ranking
import Undertone.Transform

/-!
# A steady sound

The audible decoder at 44100 Hz listens to a sound whose frames all rank the tones the same way, with the start tokens
on top. It goes through a cycle: 35 frames up to the start tokens, 18 blocks of 18 frames, each a value if the sound
makes a token of it, and a frame for the end.
-/

namespace Undertone

open CountedLoop RingBuffer Globals

namespace Core

/-- The audible decoder searches, and noted the last `n` frames. -/
structure Waiting (rank : ℕ → ℕ → ℕ) (T0 n : ℕ) (C : Core ℝ) : Prop where
  decoding : C.mDecoding = 0
  searching : Searching rank T0 n C.analysis

/-- `m` frames after the start tokens, which `T` frames ended. -/
structure Reading (rank : ℕ → ℕ → ℕ) (A0 : Analysis ℝ) (T m : ℕ) (C : Core ℝ) : Prop where
  onTime : OnTime .AudibleMultiTone A0 m (m / 18) C
  size : A0.mSizeBlockCircularBuffer = 36
  write : A0.mWritePosInBlockCircularBuffer = T % 36
  late : 35 ≤ T
  settings : Settings C.analysis
  cells : Cells rank (T + m) C.analysis

/-- The tones that a block votes for in phase `p` are those of some token. -/
def Tokens (rank : ℕ → ℕ → ℕ) (p : ℕ) : Prop :=
  IsTokenPair (elected (strongest (rank p))).1 (elected (strongest (rank p))).2

instance (rank : ℕ → ℕ → ℕ) (p : ℕ) : Decidable (Tokens rank p) := inferInstanceAs (Decidable (IsTokenPair _ _))

variable {rank : ℕ → ℕ → ℕ} {g : Globals ℝ} {frame : ℕ → ℝ} {C : Core ℝ}

/-! ## The search -/

theorem Waiting.step (hrank : Starts rank) {T0 n : ℕ} (hn : n + 1 < 35) (h : Waiting rank T0 n C)
    (hs : Sounds rank frame) :
    ∃ C', Core.step .AudibleMultiTone g frame C = (none, C') ∧ Waiting rank T0 (n + 1) C' := by
  obtain ⟨B, hB, hret⟩ := h.searching.step hrank (by omega) hs
  rw [if_neg (by omega)] at hret
  have hA : C.AnalyzeStartTokens .AudibleMultiTone frame = (0, B) := hret
  refine ⟨{ C with analysis := B }, ?_, h.decoding, hB⟩
  unfold Core.step
  rw [if_pos h.decoding, hA]
  rfl

/-- Frame 35 of the search. -/
theorem Waiting.start (hrank : Starts rank) {T0 : ℕ} (h : Waiting rank T0 34 C) (hs : Sounds rank frame) :
    ∃ C', Core.step .AudibleMultiTone g frame C = (some (-2), C') ∧ Reading rank C'.analysis (T0 + 35) 0 C' := by
  obtain ⟨B, hB, hret⟩ := h.searching.step hrank (by omega) hs
  rw [if_pos rfl] at hret
  have hA : C.AnalyzeStartTokens .AudibleMultiTone frame = (1, Analysis.beginMessage 0 B) := hret
  have hstep : Core.step .AudibleMultiTone g frame C =
      (some (-2), C.begin .AudibleMultiTone 1 (Analysis.beginMessage 0 B)) := by
    unfold Core.step
    rw [if_pos h.decoding, hA]
    rfl
  refine ⟨_, hstep, ?_⟩
  have hstarted := step_started (c := .AudibleMultiTone) rfl (congrArg Prod.fst hstep)
  rw [hstep] at hstarted
  have hset := hB.settings.setLane (f := fun L => { L with mReadPosInBlockCircularBuffer :=
    B.mWritePosInBlockCircularBuffer }) (fun _ => rfl) (fun _ => rfl) fun _ => rfl
  exact ⟨hstarted.onTime, hB.settings.size, hB.write, by omega, ⟨hset.size, hset.tolerance, hset.mode, hset.fft,
    hset.window, hset.bins, hset.beginBin, hset.endBin⟩, hB.cells⟩

/-! ## The blocks -/

/-- A frame of a message, as far as the ring of spectra goes. -/
theorem step_settings (h1 : 1 ≤ C.mDecoding) (h18 : C.mDecoding ≤ 18) {T : ℕ} (hset : Settings C.analysis)
    (hcells : Cells rank T C.analysis) (hwrite : C.analysis.mWritePosInBlockCircularBuffer = T % 36)
    (hs : Sounds rank frame) :
    Settings (Core.step .AudibleMultiTone g frame C).2.analysis ∧
      Cells rank (T + 1) (Core.step .AudibleMultiTone g frame C).2.analysis := by
  obtain ⟨hstore, -, hcells'⟩ := hset.store hcells hwrite hs
  have hset' : Settings (stored frame C) := ⟨hstore.size, hstore.tolerance, hstore.mode, hstore.fft, hstore.window,
    hstore.bins, hstore.beginBin, hstore.endBin⟩
  have hcells' : Cells rank (T + 1) (stored frame C) := hcells'
  by_cases hcons : Consumes .AudibleMultiTone frame C
  · obtain ⟨A, hkeep, hstep⟩ := step_consumes (c := .AudibleMultiTone) rfl (g := g) hcons
    have hA := hset'.keeps hkeep
    have hlane := hA.setLane (f := fun L => { L with mReadPosInBlockCircularBuffer :=
      (A.mEndStartTokenPosInBlockCircularBuffer + (A.mAccumulatedDecodingFrames + A.mSizeBlockCircularBuffer + 1) / 2) %
        A.mSizeBlockCircularBuffer }) (fun _ => rfl) (fun _ => rfl) fun _ => rfl
    have hres : Settings (Analysis.consumeBlock 0 A) ∧ Cells rank (T + 1) (Analysis.consumeBlock 0 A) := by
      refine ⟨⟨hlane.size, hlane.tolerance, hlane.mode, hlane.fft, hlane.window, hlane.bins, hlane.beginBin,
        hlane.endBin⟩, fun pos hpos hT => ?_⟩
      show Ranked rank (A.mBlockSpecMag pos)
      rw [hkeep.mag]
      exact hcells' pos hpos hT
    rw [hstep]
    split
    · exact hres
    · exact hres
  · rw [step_stores (c := .AudibleMultiTone) rfl g frame C h1 h18 hcons]
    exact ⟨hset', hcells'⟩

/-- The tones that a block votes for are those of the phase of its number. -/
theorem Reading.blockTones {A0 : Analysis ℝ} {T m : ℕ} (h : Reading rank A0 T m C) (hm : m < 324)
    (hg : g.nBinsOffsetForAudibleMultiTone = 12) (hs : Sounds rank frame) :
    Core.blockTones .AudibleMultiTone g frame C = elected (strongest (rank ((m / 18 + 1) % 3))) := by
  have hd : C.mDecoding = ((m / 18 + 1 : ℕ) : ℤ) := h.onTime.decoding
  have hwrite : C.analysis.mWritePosInBlockCircularBuffer = (T + m) % 36 := by
    rw [h.onTime.write, h.size, h.write]
    omega
  obtain ⟨hstore, -, hcells⟩ := h.settings.store h.cells hwrite hs
  have hset : Settings (stored frame C) := ⟨hstore.size, hstore.tolerance, hstore.mode, hstore.fft, hstore.window,
    hstore.bins, hstore.beginBin, hstore.endBin⟩
  have hlate := h.late
  have hcells : Cells rank 36 (stored frame C) := fun pos hpos _ => hcells pos hpos (by omega)
  have hvote := votedTones_eq hset hcells hg (m / 18 + 1)
  rw [← hd] at hvote
  exact hvote

/-- The 18th frame of a block fills it. -/
theorem Reading.consumes_iff {A0 : Analysis ℝ} {T m : ℕ} (h : Reading rank A0 T m C) (hm : m < 324) (frame : ℕ → ℝ) :
    Consumes .AudibleMultiTone frame C ↔ (m + 1) % 18 = 0 := by
  have h2 : 2 ≤ A0.mSizeBlockCircularBuffer := by
    rw [h.size]
    decide
  have hd := h.onTime.decoding
  have hfilled := h.onTime.filled (by omega) h2 frame
  have hsize : (stored frame C).mSizeBlockCircularBuffer = 36 := h.settings.size
  rw [h.size, blockStart] at hfilled
  unfold Consumes
  rw [hfilled, hsize]
  omega

/-- A frame of a message: the 18th of its block gives a value, the others none. -/
theorem Reading.step {A0 : Analysis ℝ} {T m : ℕ} (h : Reading rank A0 T m C) (hm : m < 324)
    (hg : g.nBinsOffsetForAudibleMultiTone = 12) (hs : Sounds rank frame)
    (htoken : (m + 1) % 18 = 0 → Tokens rank ((m / 18 + 1) % 3)) :
    ∃ r C', Core.step .AudibleMultiTone g frame C = (r, C') ∧ Reading rank A0 T (m + 1) C' ∧
      (∀ v, r = some v → 0 ≤ v) := by
  have hd := h.onTime.decoding
  have hwrite : C.analysis.mWritePosInBlockCircularBuffer = (T + m) % 36 := by
    rw [h.onTime.write, h.size, h.write]
    omega
  have hkeep := step_settings (g := g) (by omega) (by omega) h.settings h.cells hwrite hs
  have hpair : Consumes .AudibleMultiTone frame C → IsTokenPair (Core.blockTones .AudibleMultiTone g frame C).1
      (Core.blockTones .AudibleMultiTone g frame C).2 := fun hcons => by
    rw [h.blockTones hm hg hs]
    exact htoken ((h.consumes_iff hm frame).1 hcons)
  have hstep := h.onTime.step rfl (by omega) g frame hpair
  have hstart : ∀ k, blockStart 36 k = 18 * k := fun k => by
    unfold blockStart
    omega
  rcases hC : Core.step .AudibleMultiTone g frame C with ⟨r, C'⟩
  rw [hC] at hstep hkeep
  refine ⟨r, C', rfl, ?_⟩
  rcases hstep with ⟨hr, hon⟩ | ⟨hr, hon, htime⟩
  · have hlt := hon.pending (by rw [h.size]; decide) (by omega)
    rw [h.size, hstart] at hlt
    obtain rfl : r = none := hr
    have hdiv : (m + 1) / 18 = m / 18 := by omega
    rw [← hdiv] at hon
    exact ⟨⟨hon, h.size, h.write, h.late, hkeep.1, hkeep.2⟩, fun v hv => absurd hv (by simp)⟩
  · have htime := htime (by rw [h.size]; decide)
    rw [h.size, hstart] at htime
    have hdiv : (m + 1) / 18 = m / 18 + 1 := by omega
    rw [← hdiv] at hon
    refine ⟨⟨hon, h.size, h.write, h.late, hkeep.1, hkeep.2⟩, fun v hv => ?_⟩
    obtain rfl : r = some _ := hr
    obtain rfl := Option.some.inj hv
    have hcons := (h.consumes_iff hm frame).2 (by omega)
    exact (Analysis.idxToken_nonneg (h.onTime.mode.range rfl) _ _).2 (hpair hcons)

/-- The frames of a sound after the start tokens, as a run. -/
theorem Reading.run {A0 : Analysis ℝ} {T : ℕ} (h : Reading rank A0 T 0 C) (hg : g.nBinsOffsetForAudibleMultiTone = 12)
    {frames : ℕ → ℕ → ℝ} (hs : ∀ m, Sounds rank (frames m)) {M : ℕ} (hM : M ≤ 324)
    (htoken : ∀ m < M, (m + 1) % 18 = 0 → Tokens rank ((m / 18 + 1) % 3)) :
    ∀ m ≤ M, ∃ moves C', Run (move .AudibleMultiTone) C moves C' ∧ Reading rank A0 T m C' ∧
      some (-3) ∉ moves.map Prod.snd ∧ TokenBlocks .AudibleMultiTone C moves ∧ frameCount moves = m := by
  intro m
  induction m with
  | zero =>
    refine fun _ => ⟨[], C, .nil, h, by simp, fun l g f r C1 hl => ?_, rfl⟩
    exact absurd (List.prefix_nil.1 hl) (by simp)
  | succ m ih =>
    intro hm
    obtain ⟨moves, C1, hrun, hread, hopen, htokens, hcount⟩ := ih (by omega)
    obtain ⟨r, C2, hC, hread', hr⟩ := hread.step (by omega) hg (hs m) (htoken m (by omega))
    have hmove : move .AudibleMultiTone (.frame g (frames m)) C1 = some (r, C2) := congrArg some hC
    refine ⟨moves ++ [(.frame g (frames m), r)], C2, .call hrun hmove, hread', ?_, ?_, ?_⟩
    · rw [List.map_append, List.mem_append, not_or]
      refine ⟨hopen, fun h3 => ?_⟩
      have := hr (-3) (List.mem_singleton.1 h3).symm
      omega
    · intro l g1 f1 r1 C3 hl hrun1 hcons
      rcases snoc_prefix_snoc.1 hl with ⟨rfl, hmove1⟩ | hl
      · obtain ⟨⟨rfl, rfl⟩, rfl⟩ : (g1 = g ∧ f1 = frames m) ∧ r1 = r := by simpa using hmove1
        obtain rfl := hrun1.deterministic hrun
        rw [hread.blockTones (by omega) hg (hs m)]
        exact htoken m (by omega) ((hread.consumes_iff (by omega) (frames m)).1 hcons)
      · exact htokens l g1 f1 r1 C3 hl hrun1 hcons
    · rw [← hcount]
      simp [frameCount]

/-- The frame after the last block. -/
theorem Reading.finish (g : Globals ℝ) (frame : ℕ → ℝ) {A0 : Analysis ℝ} {T : ℕ} (h : Reading rank A0 T 324 C) :
    ∃ C', Core.step .AudibleMultiTone g frame C = (some (-3), C') ∧ Waiting rank (T + 324) 0 C' := by
  have hd : C.mDecoding = ((324 / 18 : ℕ) : ℤ) + 1 := h.onTime.decoding
  refine ⟨_, step_finished _ g frame (by omega), rfl, ?_⟩
  have hset := h.settings
  have hwrite : C.analysis.mWritePosInBlockCircularBuffer = (T + 324) % 36 := by
    rw [h.onTime.write, h.size, h.write]
    omega
  have hread : (C.analysis.lane 0).mReadPosInBlockCircularBuffer = (T + 324) % 36 := by
    have hread := h.onTime.read
    rw [h.size, h.write] at hread
    refine hread.trans ?_
    unfold blockStart
    omega
  exact ⟨⟨hset.size, hset.tolerance, hset.mode, hset.fft, hset.window, hset.bins, hset.beginBin, hset.endBin⟩, h.cells,
    hwrite, hread, fun j hj => absurd hj (Nat.not_lt_zero j), fun j hj => absurd hj (Nat.not_lt_zero j)⟩

/-! ## The cycle -/

/-- `j` frames into the cycle. -/
def InCycle (rank : ℕ → ℕ → ℕ) (j : ℕ) (C : Core ℝ) : Prop :=
  if j < 35 then ∃ T0, Waiting rank T0 j C else ∃ A0 T, Reading rank A0 T (j - 35) C

/-- What the frame after these `j` returns. -/
def CycleResult (j : ℕ) (r : Option ℤ) : Prop :=
  if j = 34 then r = some (-2) else if j = 359 then r = some (-3) else ∀ v, r = some v → 0 ≤ v

theorem InCycle.step (hrank : Starts rank) {j : ℕ} (hj : j < 360) (h : InCycle rank j C)
    (hg : g.nBinsOffsetForAudibleMultiTone = 12) (hs : Sounds rank frame)
    (htoken : 35 ≤ j → j < 359 → Tokens rank (((j - 35) / 18 + 1) % 3)) :
    ∃ r C', Core.step .AudibleMultiTone g frame C = (r, C') ∧ CycleResult j r ∧ InCycle rank ((j + 1) % 360) C' := by
  unfold InCycle at h
  by_cases hsearch : j < 35
  · rw [if_pos hsearch] at h
    obtain ⟨T0, h⟩ := h
    by_cases h34 : j = 34
    · subst h34
      obtain ⟨C', hC, hread⟩ := h.start hrank (g := g) hs
      exact ⟨_, C', hC, rfl, C'.analysis, T0 + 35, hread⟩
    · obtain ⟨C', hC, hwait⟩ := h.step hrank (g := g) (by omega) hs
      refine ⟨none, C', hC, ?_, ?_⟩
      · rw [CycleResult, if_neg h34, if_neg (by omega)]
        exact fun v hv => absurd hv (by simp)
      · rw [InCycle, Nat.mod_eq_of_lt (by omega), if_pos (by omega)]
        exact ⟨T0, hwait⟩
  · rw [if_neg hsearch] at h
    obtain ⟨A0, T, h⟩ := h
    by_cases h359 : j = 359
    · subst h359
      obtain ⟨C', hC, hwait⟩ := Reading.finish g frame h
      exact ⟨_, C', hC, rfl, T + 324, hwait⟩
    · obtain ⟨r, C', hC, hread, hv⟩ := h.step (by omega) hg hs fun _ => htoken (by omega) (by omega)
      refine ⟨r, C', hC, ?_, ?_⟩
      · rw [CycleResult, if_neg (by omega), if_neg h359]
        exact hv
      · rw [InCycle, Nat.mod_eq_of_lt (by omega), if_neg (by omega), show j + 1 - 35 = j - 35 + 1 by omega]
        exact ⟨A0, T, hread⟩

end Core

/-! ## The window -/

/-- The window in terms of the cosine. -/
theorem blackmanHarris74_eq (size i : ℕ) :
    (SpectralAnalysis.blackmanHarris74 size i : ℝ) =
      (1 - Real.cos (SpectralAnalysis.windowAngle size i)) *
        (0.48 + 0.06 * Real.cos (SpectralAnalysis.windowAngle size i) +
          0.04 * Real.cos (SpectralAnalysis.windowAngle size i) ^ 2) := by
  unfold SpectralAnalysis.blackmanHarris74
  generalize (SpectralAnalysis.windowAngle size i : ℝ) = x
  have h2 : Real.cos (x * 2) = 2 * Real.cos x ^ 2 - 1 := by rw [mul_comm, Real.cos_two_mul]
  have h3 : Real.cos (x * 3) = 4 * Real.cos x ^ 3 - 3 * Real.cos x := by rw [mul_comm, Real.cos_three_mul]
  simp only [lit_eq]
  show ((0.47 : ℚ) : ℝ) - (0.45 : ℚ) * Real.cos x - (0.01 : ℚ) * Real.cos (x * (2 : ℚ)) -
    (0.01 : ℚ) * Real.cos (x * (3 : ℚ)) = _
  push_cast
  rw [h2, h3]
  ring

theorem blackmanHarris74_nonneg (size i : ℕ) : 0 ≤ (SpectralAnalysis.blackmanHarris74 size i : ℝ) := by
  rw [blackmanHarris74_eq]
  have h1 := Real.cos_le_one (SpectralAnalysis.windowAngle size i : ℝ)
  have h2 := Real.neg_one_le_cos (SpectralAnalysis.windowAngle size i : ℝ)
  exact mul_nonneg (by linarith) (by nlinarith)

theorem blackmanHarris74_pos {i : ℕ} (h1 : 1 ≤ i) (hi : i < 2048) :
    0 < (SpectralAnalysis.blackmanHarris74 2048 i : ℝ) := by
  have hangle : 0 < (SpectralAnalysis.windowAngle 2048 i : ℝ) ∧
      (SpectralAnalysis.windowAngle 2048 i : ℝ) < 2 * Real.pi := by
    have h1 : (1 : ℝ) ≤ i := by exact_mod_cast h1
    have hi : (i : ℝ) ≤ 2047 := by exact_mod_cast Nat.le_of_lt_succ hi
    have hpi := Real.pi_gt_d20
    simp only [SpectralAnalysis.windowAngle, two_pi, lit_eq, ofInt_eq]
    push_cast
    constructor
    · positivity
    · linarith
  have hcos : Real.cos (SpectralAnalysis.windowAngle 2048 i) < 1 := by
    refine lt_of_le_of_ne (Real.cos_le_one _) fun h => ?_
    rw [Real.cos_eq_one_iff_of_lt_of_lt (by linarith [hangle.1, Real.pi_pos]) hangle.2] at h
    exact hangle.1.ne' h
  rw [blackmanHarris74_eq]
  have h2 := Real.neg_one_le_cos (SpectralAnalysis.windowAngle 2048 i : ℝ)
  exact mul_pos (by linarith) (by nlinarith)

/-- The sum by which the window is scaled. -/
theorem window_sum_pos :
    0 < forUp 0 2048 (fun i fSum => fSum + SpectralAnalysis.blackmanHarris74 2048 i) (Floats.lit 0 : ℝ) := by
  have hloop := forUp_rule (a := 0) (b := 2048) (s := (Floats.lit 0 : ℝ))
    (f := fun i fSum => fSum + SpectralAnalysis.blackmanHarris74 2048 i)
    (P := fun n fSum => 0 ≤ fSum ∧ (2 ≤ n → 0 < fSum)) (Nat.zero_le _)
    ⟨le_of_eq (Rat.cast_zero (α := ℝ)).symm, fun h => absurd h (by decide)⟩ ?_
  · exact hloop.2 (by decide)
  · rintro n fSum - hn ⟨hnonneg, hpos⟩
    refine ⟨add_nonneg hnonneg (blackmanHarris74_nonneg 2048 n), fun h2 => ?_⟩
    exact add_pos_of_nonneg_of_pos hnonneg (blackmanHarris74_pos (show 1 ≤ n by omega) hn)

theorem window_pos (mem : ℕ → ℝ) {i : ℕ} (h1 : 1 ≤ i) (hi : i < 2048) :
    0 < SpectralAnalysis.generateBlackmanHarris74Window mem 2048 i := by
  rw [SpectralAnalysis.window_factor mem hi]
  exact div_pos (blackmanHarris74_pos h1 hi) (div_pos window_sum_pos (by rw [lit_eq]; norm_num))

/-! ## The decoder -/

namespace Decoder

/-- The audible decoder before its first call. -/
noncomputable def audible : Decoder ℝ := Decoder.new default default .AudibleMultiTone initial 44100 2048

/-- The grid of the audible mode at 44100 Hz. -/
theorem round_audible (idx : ℕ) :
    Globals.round (getToneFromIdxAudibleMultiTone idx (44100 : ℝ) 2048 * (ofInt (2048 : ℕ) / 44100)) =
      audibleBin 0 idx := by
  have hfirst : Globals.round ((Floats.lit 3300 : ℝ) / (44100 / (2048 : ℕ))) = (153 : ℕ) := by
    refine truncate_eq ?_ ?_
    · show ((153 : ℕ) : ℝ) ≤ ((3300 : ℚ) : ℝ) / (44100 / (2048 : ℕ)) + ((1 / 2 : ℚ) : ℝ)
      norm_num
    · show ((3300 : ℚ) : ℝ) / (44100 / (2048 : ℕ)) + ((1 / 2 : ℚ) : ℝ) < ((153 : ℕ) : ℝ) + 1
      norm_num
  have hdistance : Globals.round ((Floats.lit 750 : ℝ) / (44100 / (2048 : ℕ))) = (35 : ℕ) := by
    refine truncate_eq ?_ ?_
    · show ((35 : ℕ) : ℝ) ≤ ((750 : ℚ) : ℝ) / (44100 / (2048 : ℕ)) + ((1 / 2 : ℚ) : ℝ)
      norm_num
    · show ((750 : ℚ) : ℝ) / (44100 / (2048 : ℕ)) + ((1 / 2 : ℚ) : ℝ) < ((35 : ℕ) : ℝ) + 1
      norm_num
  have hbin := round_toneGrid (Floats.lit 3300) (Floats.lit 750) idx (show (0 : ℝ) < 44100 by norm_num)
    (show 0 < 2048 by decide) rfl
  rw [hfirst, hdistance, if_pos (by positivity)] at hbin
  refine hbin.trans ?_
  unfold audibleBin
  push_cast
  ring

theorem audible_size : audible.core.analysis.mSizeBlockCircularBuffer = 36 := ringSize_44100 ..

theorem audible_settings : Settings audible.core.analysis := by
  refine ⟨audible_size, ?_, rfl, rfl, fun i h1 hi => window_pos _ h1 hi, fun i hi => ?_, ?_, ?_⟩
  · show truncate (((audible.core.analysis.mSizeBlockCircularBuffer / 2 : ℚ) : ℝ) * ((0.05 : ℚ) : ℝ) +
      ((0.5 : ℚ) : ℝ)) = (1 : ℕ)
    rw [audible_size]
    refine truncate_eq ?_ ?_
    · norm_num
    · norm_num
  · exact (mFreqsBins_new rfl default default initial 44100 2048 hi).trans (round_audible i)
  · exact round_audible 0
  · exact round_audible 8

/-- Nothing is noted yet. -/
theorem audible_waiting (rank : ℕ → ℕ → ℕ) : Core.Waiting rank 0 0 audible.core :=
  ⟨rfl, audible_settings, fun pos _ hT => absurd hT (Nat.not_lt_zero pos), rfl, rfl,
    fun j hj => absurd hj (Nat.not_lt_zero j), fun j hj => absurd hj (Nat.not_lt_zero j)⟩

end Decoder

/-! ## Calls -/

/-- A call with which the next frame is complete: it returns the result of this frame, if no second one is complete. -/
theorem FrameBuffer.feed_frame {F σ : Type} {step : (ℕ → F) → σ → Option ℤ × σ} {W H : ℕ} {tail x : ℕ → F} (hHW : H ≤ W)
    {p n size : ℕ} {B : FrameBuffer F} (h : Tracks W H tail x B p n) (hfit : p + size < n * H + W * 4)
    (hfull : n * H + W ≤ p + size) (hH : 0 < W) (audioBuffer : ℕ → F) (hx : ∀ i < size, audioBuffer i = x (p + i))
    {s s' : σ} {r : Option ℤ} (hst : step (window W H tail x n) s = (r, s'))
    (hlast : r = none → p + size < (n + 1) * H + W) :
    ∃ B', feed step audioBuffer size (B, s) = (r, B', s') ∧ Tracks W H tail x B' (p + size) (n + 1) := by
  have hw := h.write hfit hx
  obtain ⟨hframe, hnext⟩ := hw.nextFrame hHW hfull
  have hfilled : (B.write audioBuffer size).getSizeFilledFrameCircularBuffer = p + size - n * H := hw.filled
  have hge : (B.write audioBuffer size).getSizeFilledFrameCircularBuffer ≥ (B.write audioBuffer size).mWindowSize := by
    rw [hfilled, hw.window]
    omega
  refine ⟨_, ?_, hnext⟩
  unfold feed
  simp only
  obtain ⟨fuel, hfuel⟩ : ∃ fuel, (B.write audioBuffer size).getSizeFilledFrameCircularBuffer = fuel + 1 :=
    ⟨_, (Nat.sub_add_cancel (by rw [hfilled]; omega)).symm⟩
  rw [hfuel]
  rw [← hframe] at hst
  cases r with
  | some r => exact frameLoop_event hge hst
  | none =>
    rw [frameLoop_next hge hst, frameLoop_short]
    rw [hnext.filled, hnext.window]
    have := hlast rfl
    omega

/-- A call with which the next frame is not complete. -/
theorem FrameBuffer.feed_short {F σ : Type} (step : (ℕ → F) → σ → Option ℤ × σ) {W H : ℕ} {tail x : ℕ → F}
    {p n size : ℕ} {B : FrameBuffer F} (h : Tracks W H tail x B p n) (hshort : p + size < n * H + W)
    (audioBuffer : ℕ → F) (hx : ∀ i < size, audioBuffer i = x (p + i)) (s : σ) :
    ∃ B', feed step audioBuffer size (B, s) = (none, B', s) ∧ Tracks W H tail x B' (p + size) n := by
  have hw := h.write (by omega) hx
  refine ⟨_, ?_, hw⟩
  unfold feed
  simp only
  rw [frameLoop_short]
  have hle := h.le
  rw [hw.filled, hw.window]
  omega

theorem Decoder.decode_of_feed {F D : Type} [Doubles D] [Floats F D] [CFFTOoura F] {d : Decoder F} {c : DecoderClass}
    (hc : d.cls = c) {g : Globals F} {audioBuffer : ℕ → F} {size : ℕ} {r : Option ℤ} {B : FrameBuffer F} {C : Core F}
    (h : FrameBuffer.feed (Core.step c g) audioBuffer size (d.frames, d.core) = (r, B, C)) :
    d.DecodeAudioBuffer g audioBuffer size = (r.getD (-1), { d with frames := B, core := C }) := by
  subst hc
  unfold DecodeAudioBuffer
  rw [h]

/-- The same for a call with which exactly one frame is complete. -/
theorem Decoder.decode_hop {F D : Type} [Doubles D] [Floats F D] [CFFTOoura F] {d : Decoder F} {c : DecoderClass}
    (hc : d.cls = c) {W H p n : ℕ} {tail x : ℕ → F} (hH : 0 < H) (hHW : H ≤ W)
    (h : FrameBuffer.Tracks W H tail x d.frames p n) (hp : p + H = n * H + W) {g : Globals F} {r : Option ℤ}
    {C : Core F}
    (hC : Core.step c g (FrameBuffer.window W H tail x n) d.core = (r, C)) :
    ∃ B, d.DecodeAudioBuffer g (fun i => x (p + i)) H = (r.getD (-1), { d with frames := B, core := C }) ∧
      FrameBuffer.Tracks W H tail x B (p + H) (n + 1) := by
  have hnH : (n + 1) * H = n * H + H := Nat.succ_mul n H
  obtain ⟨B, hfeed, hB⟩ := FrameBuffer.feed_frame hHW h (by omega : p + H < n * H + W * 4) (by omega) (by omega)
    (fun i => x (p + i)) (fun i _ => rfl) hC fun _ => by omega
  exact ⟨B, decode_of_feed hc hfeed, hB⟩

namespace Decoder

/-- `p` samples of `x` were played, 256 less than complete the next frame, and the analysis is `j` frames into the
cycle. -/
structure Playing (rank : ℕ → ℕ → ℕ) (x : ℕ → ℝ) (p j : ℕ) (d : Decoder ℝ) : Prop where
  cls : d.cls = .AudibleMultiTone
  frames : ∃ tail n, FrameBuffer.Tracks 2048 256 tail x d.frames p n ∧ p + 256 = n * 256 + 2048
  cycle : Core.InCycle rank j d.core

variable {rank : ℕ → ℕ → ℕ} {x : ℕ → ℝ} {g : Globals ℝ} {p j : ℕ} {d : Decoder ℝ}

theorem Playing.window (h : Playing rank x p j d) : d.frames.mWindowSize = 2048 := by
  obtain ⟨tail, n, htracks, -⟩ := h.frames
  exact htracks.window

theorem Playing.unread (h : Playing rank x p j d) : d.unread = 1792 := by
  obtain ⟨tail, n, htracks, hp⟩ := h.frames
  have hfilled : d.unread = p - n * 256 := htracks.filled
  omega

/-- The next 256 samples. -/
theorem Playing.hop (hrank : Starts rank) (hsound : ∀ tail k, Sounds rank (FrameBuffer.window 2048 256 tail x k))
    (hg : g.nBinsOffsetForAudibleMultiTone = 12) (hj : j < 360) (h : Playing rank x p j d)
    (htoken : 35 ≤ j → j < 359 → Core.Tokens rank (((j - 35) / 18 + 1) % 3)) :
    ∃ r d', d.DecodeAudioBuffer g (fun i => x (p + i)) 256 = (r.getD (-1), d') ∧ Core.CycleResult j r ∧
      Playing rank x (p + 256) ((j + 1) % 360) d' := by
  obtain ⟨tail, n, htracks, hp⟩ := h.frames
  obtain ⟨r, C', hC, hr, hcycle⟩ := h.cycle.step hrank hj hg (hsound tail n) htoken
  obtain ⟨B', hdec, hB⟩ := decode_hop h.cls (by decide) (by decide) htracks hp hC
  exact ⟨r, { d with frames := B', core := C' }, hdec, hr, h.cls, ⟨tail, n + 1, hB, by omega⟩, hcycle⟩

/-! ## Runs -/

variable {ok : Decoder ℝ → ℕ → Prop} [∀ d n, Decidable (ok d n)]

/-- A decoder before its first call, at the rate and with the window that it is made for. -/
theorem tracks_new (mem : Decoder ℝ) (memRS : ReedSolomon) (c : DecoderClass) (g : Globals ℝ) (x : ℕ → ℝ) :
    FrameBuffer.Tracks 2048 256 (Decoder.new mem memRS c g 44100 2048).frames.mAnalBufferFloat x
      (Decoder.new mem memRS c g 44100 2048).frames 0 0 := by
  have hstep : InStep c g x (Decoder.new mem memRS c g 44100 2048) []
      ⟨0, Decoder.new mem memRS c g 44100 2048, []⟩ 0 := inStep_new (by rw [hopSize_44100]; decide)
  have hhop : (Decoder.new mem memRS c g 44100 2048).frames.mHopSize = 256 := hopSize_44100
  have htracks := hstep.tracks
  rw [hhop] at htracks
  exact htracks

/-- The first samples, not enough for a frame. -/
theorem audible_primes (hok : ok audible 1792) :
    ∃ L, listen ok g x 1792 ⟨0, audible, []⟩ = some (-1, L) ∧ L.played = 1792 ∧
      Playing rank x L.played 0 L.decoder := by
  obtain ⟨B', hfeed, hB⟩ := FrameBuffer.feed_short (Core.step .AudibleMultiTone g) (tracks_new _ _ _ _ x)
    (show 0 + 1792 < 0 * 256 + 2048 by decide) (fun i => x (0 + i)) (fun i _ => rfl) audible.core
  have hdec := decode_of_feed (d := audible) rfl hfeed
  obtain ⟨frames, hlisten⟩ := listen_of_call (L := ⟨0, audible, []⟩) hok hdec
  exact ⟨_, hlisten, rfl, rfl, ⟨_, 0, hB, rfl⟩, 0, audible_waiting rank⟩

/-- The next 256 samples, listened to. -/
theorem Playing.listen (hrank : Starts rank) (hsound : ∀ tail k, Sounds rank (FrameBuffer.window 2048 256 tail x k))
    (hg : g.nBinsOffsetForAudibleMultiTone = 12) {L : Listening ℝ} (hok : ok L.decoder 256) (hj : j < 360)
    (h : Playing rank x L.played j L.decoder)
    (htoken : 35 ≤ j → j < 359 → Core.Tokens rank (((j - 35) / 18 + 1) % 3)) :
    ∃ r L', Decoder.listen ok g x 256 L = some (r, L') ∧ (r = -3 ↔ j = 359) ∧ L'.played = L.played + 256 ∧
      Playing rank x L'.played ((j + 1) % 360) L'.decoder := by
  obtain ⟨r, d', hd, hr, hplay⟩ := h.hop hrank hsound hg hj htoken
  obtain ⟨frames, hlisten⟩ := listen_of_call hok hd
  refine ⟨_, _, hlisten, ?_, rfl, hplay⟩
  unfold Core.CycleResult at hr
  by_cases h34 : j = 34
  · rw [if_pos h34] at hr
    subst hr
    exact iff_of_false (by decide) (by omega)
  · rw [if_neg h34] at hr
    by_cases h359 : j = 359
    · rw [if_pos h359] at hr
      subst hr
      exact iff_of_true rfl h359
    · rw [if_neg h359] at hr
      refine iff_of_false (fun h3 => ?_) h359
      cases r with
      | none => exact absurd h3 (by decide)
      | some v =>
        have := hr v rfl
        simp only [Option.getD_some] at h3
        omega

variable (ok) in
/-- A decoder that listens to the sound, 256 samples at a time: in the ring are always the 1792 samples that the next
frame shares with the last one. -/
theorem play (hrank : Starts rank) (hsound : ∀ tail k, Sounds rank (FrameBuffer.window 2048 256 tail x k))
    (hg : g.nBinsOffsetForAudibleMultiTone = 12)
    (hok : ∀ (d : Decoder ℝ) size, d.frames.mWindowSize = 2048 → d.unread + size ≤ 2048 → ok d size) {N : ℕ}
    (htoken : ∀ n < N, 35 ≤ n % 360 → n % 360 < 359 → Core.Tokens rank (((n % 360 - 35) / 18 + 1) % 3)) :
    ∀ n ≤ N, ∃ log L, Run (listen ok g x) ⟨0, audible, []⟩ log L ∧ Playing rank x L.played (n % 360) L.decoder ∧
      L.played = 1792 + n * 256 ∧ (-3 ∈ results log ↔ 360 ≤ n) ∧
      ∀ l L1, l <+: log → l ≠ [] → Run (listen ok g x) ⟨0, audible, []⟩ l L1 →
        L1.decoder.unread < L1.decoder.frames.mWindowSize := by
  intro n
  induction n with
  | zero =>
    intro _
    obtain ⟨L, hlisten, hplayed, hplay⟩ := audible_primes (hok audible 1792 rfl (by decide))
    have hrun := Run.call .nil hlisten
    refine ⟨_, L, hrun, hplay, hplayed, by simp [results], fun l L1 hl hne hrun1 => ?_⟩
    obtain rfl : l = [(1792, -1)] := (List.prefix_concat_iff.1 hl).resolve_right fun h => hne (List.prefix_nil.1 h)
    rw [hrun1.deterministic hrun, hplay.unread, hplay.window]
    decide
  | succ n ih =>
    intro hn
    obtain ⟨log, L, hrun, hplay, hplayed, hend, hunread⟩ := ih (by omega)
    obtain ⟨r, L', hlisten, hr, hplayed', hplay'⟩ := hplay.listen hrank hsound hg
      (hok L.decoder 256 hplay.window (by rw [hplay.unread])) (Nat.mod_lt _ (by decide)) (htoken n (by omega))
    rw [show (n % 360 + 1) % 360 = (n + 1) % 360 by omega] at hplay'
    refine ⟨_, L', .call hrun hlisten, hplay', by omega, ?_, fun l L1 hl hne hrun1 => ?_⟩
    · have hsplit : -3 ∈ results (log ++ [(256, r)]) ↔ -3 ∈ results log ∨ r = -3 := by
        rw [mem_results (by decide), mem_results (by decide)]
        simp [or_and_right, exists_or]
      rw [hsplit, hend, hr]
      omega
    · rcases List.prefix_concat_iff.1 hl with rfl | hl
      · rw [hrun1.deterministic (.call hrun hlisten), hplay'.unread, hplay'.window]
        decide
      · exact hunread l L1 hl hne hrun1

/-- The same as calls without polls, up to the start tokens. -/
theorem play_starts (hrank : Starts rank) (hsound : ∀ tail k, Sounds rank (FrameBuffer.window 2048 256 tail x k))
    (hg : g.nBinsOffsetForAudibleMultiTone = 12) :
    ∃ log call d, Run Decoder.call audible (log ++ [(call, .event (-2))]) d ∧
      ∃ A0 T, Core.Reading rank A0 T 0 d.core := by
  obtain ⟨log, L, hrun, hplay, -⟩ := play (fun _ _ => True) hrank hsound hg (fun _ _ _ _ => trivial)
    (N := 34) (fun n hn h35 => by omega) 34 le_rfl
  obtain ⟨calls, hcalls, -, -⟩ := listen_calls hrun
  obtain ⟨r, d, hd, hr, hplay'⟩ := hplay.hop hrank hsound hg (by decide) fun h => absurd h (by decide)
  obtain rfl : r = some (-2) := hr
  exact ⟨calls, _, d, .call hcalls (call_of_decode hd), hplay'.cycle⟩

/-- The same as calls without polls, up to the end of the message `n`. -/
theorem play_ends (hrank : Starts rank) (hsound : ∀ tail k, Sounds rank (FrameBuffer.window 2048 256 tail x k))
    (hg : g.nBinsOffsetForAudibleMultiTone = 12) (htoken : ∀ p < 3, Core.Tokens rank p) (n : ℕ) :
    ∃ log call d, Run Decoder.call audible (log ++ [(call, .event (-3))]) d ∧ (∀ e ∈ log, e.1 ≠ .GetDecodedData) ∧
      (-3 ∈ events log ↔ 1 ≤ n) := by
  obtain ⟨log, L, hrun, hplay, -, hend, -⟩ := play (fun _ _ => True) hrank hsound hg (fun _ _ _ _ => trivial)
    (N := n * 360 + 359) (fun n _ _ _ => htoken _ (Nat.mod_lt _ (by decide))) (n * 360 + 359) le_rfl
  obtain ⟨calls, hcalls, hpolls, hevents⟩ := listen_calls hrun
  obtain ⟨r, d, hd, hr, -⟩ := hplay.hop hrank hsound hg (Nat.mod_lt _ (by decide)) fun _ _ =>
    htoken _ (Nat.mod_lt _ (by decide))
  rw [show (n * 360 + 359) % 360 = 359 by omega] at hr
  obtain rfl : r = some (-3) := hr
  refine ⟨calls, _, d, .call hcalls (call_of_decode hd), hpolls, ?_⟩
  rw [hevents, hend]
  omega

end Decoder

end Undertone
