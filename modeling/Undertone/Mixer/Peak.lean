import Undertone.Mixer.Safety

/-!
# The peak of the mix

Every sample is clipped to `[-1, 1]` before it is stored, and `maxpeak` is the largest of all in absolute value. It is
zero when all of them are: then the normalisation divides by zero, and in no other case (`mix_well_iff`).
-/

namespace Undertone

open CountedLoop BoundedArray Globals

namespace Mixer

/-! ## Clipping -/

theorem clip_real (x : ℝ) : clip x = max (-1) (min 1 x) := by
  have hone : (Floats.lit 1 : ℝ) = 1 := Rat.cast_one
  have hneg : (Floats.lit (-1) : ℝ) = -1 := by
    rw [lit_eq]
    norm_num
  have hle : ∀ y z : ℝ, (Floats.lt y z || Floats.eq y z) = true ↔ y ≤ z := fun y z => by
    rw [Bool.or_eq_true, le_iff_lt_or_eq]
    exact or_congr decide_eq_true_iff decide_eq_true_iff
  unfold clip
  simp only [hone, hneg, hle]
  rw [min_def, max_def']

theorem abs_clip_le (x : ℝ) : |clip x| ≤ 1 := by
  rw [clip_real, abs_le]
  exact ⟨le_max_left _ _, max_le (by norm_num) (min_le_left _ _)⟩

theorem clip_eq_zero {x : ℝ} : clip x = 0 ↔ x = 0 := by
  rw [clip_real]
  constructor
  · intro h
    rcases le_total 1 x with h1 | h1
    · rw [min_eq_left h1] at h
      norm_num at h
    · rw [min_eq_right h1] at h
      rcases le_total x (-1) with h2 | h2
      · rw [max_eq_left h2] at h
        norm_num at h
      · rwa [max_eq_right h2] at h
  · rintro rfl
    norm_num

/-! ## The largest sample -/

/-- The cells of `D` hold the samples of `x`, and `maxpeak` is the largest of them in absolute value. -/
structure Peaks (x : ℕ → ℕ → ℝ) (D : ℕ → ℕ → Prop) (st : (ℕ → ℕ → ℝ) × ℝ) : Prop where
  written : ∀ j i, D j i → st.1 j i = x j i
  bound : ∀ j i, D j i → |x j i| ≤ st.2
  attained : st.2 = 0 ∨ ∃ j i, D j i ∧ |x j i| = st.2

theorem Peaks.cell {x : ℕ → ℕ → ℝ} {D : ℕ → ℕ → Prop} {st : (ℕ → ℕ → ℝ) × ℝ} (h : Peaks x D st) (j i : ℕ) :
    Peaks x (fun j' i' => D j' i' ∨ j' = j ∧ i' = i)
      (set2 st.1 j i (x j i), if Floats.lt st.2 (Floats.abs (x j i)) then Floats.abs (x j i) else st.2) := by
  have hmax : (if Floats.lt st.2 (Floats.abs (x j i)) then Floats.abs (x j i) else st.2) = max st.2 |x j i| := by
    rw [max_def_lt]
    exact if_congr decide_eq_true_iff rfl rfl
  rw [hmax]
  constructor
  · intro j' i' h'
    simp only [set2_apply]
    split
    · rename_i heq
      rw [heq.1, heq.2]
    · rename_i hne
      exact h.written j' i' (h'.resolve_right hne)
  · rintro j' i' (h' | ⟨rfl, rfl⟩)
    · exact (h.bound j' i' h').trans (le_max_left _ _)
    · exact le_max_right _ _
  · rcases le_total |x j i| st.2 with hle | hle
    · rw [max_eq_left hle]
      exact h.attained.imp_right fun ⟨j', i', h', heq⟩ => ⟨j', i', Or.inl h', heq⟩
    · rw [max_eq_right hle]
      exact Or.inr ⟨j, i, Or.inr ⟨rfl, rfl⟩, rfl⟩

section Mix

variable {m : Mixer ℝ} {a : Buffers ℝ}

/-- The sample that is stored, with the gain `gain i` for the undertone. -/
noncomputable def stored (m : Mixer ℝ) (a : Buffers ℝ) (gain : ℕ → ℝ) (j i : ℕ) : ℝ :=
  clip (gain i * a.bufferUndertone i + m.defPgmLevel * a.bufferPgm j i)

theorem mixed_peaks (hch : 1 ≤ a.nchannels) {levels : List ℝ × List ℝ × ℝ}
    (hlevels : m.computeUndertoneLevel (a.bufferPgm 0) a.nsamples a.samplerate = some levels) (hmode : ValidMode m)
    {gain : ℕ → ℝ} (hgain : ∀ i, m.undertoneGain a levels i = some (gain i)) (bufferMix : ℕ → ℕ → ℝ) :
    ∃ st, m.mixed a bufferMix = some (some st) ∧
      Peaks (stored m a gain) (fun j i => j < a.nchannels ∧ i < a.nsamples) st := by
  obtain ⟨st, hst, hpeaks⟩ := forUpM_grid (m := a.nchannels) (n := a.nsamples)
    (f := fun i st => (m.undertoneGain a levels i).bind fun level => m.mixSample a level i st)
    (g := fun i j st => do
      let u ← get a.nsamples a.bufferUndertone i
      let p ← get2 a.nchannels a.nsamples a.bufferPgm j i
      let x := clip (gain i * u + m.defPgmLevel * p)
      let bufferMix ← put2 a.nchannels a.nsamples st.1 j i x
      return (bufferMix, if Floats.lt st.2 (Floats.abs x) then Floats.abs x else st.2))
    (s := (bufferMix, Floats.lit 0)) (Peaks (stored m a gain))
    (fun i st _ => by
      rw [hgain, Option.bind_some]
      rfl)
    ⟨fun _ _ h => h.elim, fun _ _ h => h.elim, Or.inl Rat.cast_zero⟩
    fun D st i j hi hj _ hst =>
      ⟨_, then_eq (get_cast hi _) (then_eq (get2_cast hj hi _) (then_eq (put2_cast hj hi _ _) rfl)), hst.cell j i⟩
  refine ⟨st, ?_, hpeaks⟩
  rw [mixed_eq hch hlevels hmode, hst, Option.map_some]

theorem normalize_eq (a : Buffers ℝ) (maxpeak : ℝ) (bufferMix : ℕ → ℕ → ℝ) :
    ∃ out, normalize a maxpeak bufferMix = some out ∧
    ∀ j i, j < a.nchannels → i < a.nsamples → out j i = bufferMix j i / maxpeak := by
  obtain ⟨out, hout, hdone, -⟩ := forUpM_grid (m := a.nchannels) (n := a.nsamples)
    (f := fun i bufferMix => forUpM 0 a.nchannels (fun j bufferMix => do
      let x ← get2 a.nchannels a.nsamples bufferMix j i
      put2 a.nchannels a.nsamples bufferMix j i (x / maxpeak)) bufferMix)
    (g := fun i j bufferMix => do
      let x ← get2 a.nchannels a.nsamples bufferMix j i
      put2 a.nchannels a.nsamples bufferMix j i (x / maxpeak)) (s := bufferMix)
    (fun D out => (∀ j i, D j i → out j i = bufferMix j i / maxpeak) ∧ ∀ j i, ¬D j i → out j i = bufferMix j i)
    (fun _ _ _ => rfl) ⟨fun _ _ h => h.elim, fun _ _ _ => rfl⟩ fun D out i j hi hj hnew ⟨hdone, hrest⟩ => by
      refine ⟨_, then_eq (get2_cast hj hi _) (put2_cast hj hi _ _), fun j' i' h' => ?_, fun j' i' h' => ?_⟩
      · rw [set2_apply]
        split
        · rename_i heq
          rw [heq.1, heq.2, hrest j i hnew]
        · rename_i hne
          exact hdone j' i' (h'.resolve_right hne)
      · rw [set2_apply, if_neg fun heq => h' (Or.inr heq)]
        exact hrest j' i' fun hD => h' (Or.inl hD)
  exact ⟨out, hout, fun j i hj hi => hdone j i ⟨hj, hi⟩⟩

/-- What a mix should be: all samples are between -1 and 1, and when they are normalised they are not divided by zero,
and the largest is 1 in absolute value. -/
structure WellMixed (m : Mixer ℝ) (a : Buffers ℝ) (maxpeak : ℝ) (out : ℕ → ℕ → ℝ) : Prop where
  bounded : ∀ j i, j < a.nchannels → i < a.nsamples → -1 ≤ out j i ∧ out j i ≤ 1
  divides : m.mUseNormalize = true → maxpeak ≠ 0
  peak : m.mUseNormalize = true → ∃ j i, j < a.nchannels ∧ i < a.nsamples ∧ |out j i| = 1

/-- Not all samples of the mix are zero. -/
def Sounds (m : Mixer ℝ) (a : Buffers ℝ) (levels : List ℝ × List ℝ × ℝ) : Prop :=
  ∃ j i level, j < a.nchannels ∧ i < a.nsamples ∧ m.undertoneGain a levels i = some level ∧
    level * a.bufferUndertone i + m.defPgmLevel * a.bufferPgm j i ≠ 0

theorem sounds_iff {levels : List ℝ × List ℝ × ℝ} {gain : ℕ → ℝ}
    (hgain : ∀ i, m.undertoneGain a levels i = some (gain i)) :
    Sounds m a levels ↔ ∃ j i, (j < a.nchannels ∧ i < a.nsamples) ∧ stored m a gain j i ≠ 0 := by
  constructor
  · rintro ⟨j, i, level, hj, hi, hlevel, hne⟩
    obtain rfl := Option.some.inj ((hgain i).symm.trans hlevel)
    exact ⟨j, i, ⟨hj, hi⟩, fun h0 => hne (clip_eq_zero.1 h0)⟩
  · rintro ⟨j, i, ⟨hj, hi⟩, hne⟩
    exact ⟨j, i, gain i, hj, hi, hgain i, fun h0 => hne (clip_eq_zero.2 h0)⟩

/-- The peak is not zero exactly if one of the samples is not. -/
theorem Peaks.ne_zero_iff {x : ℕ → ℕ → ℝ} {D : ℕ → ℕ → Prop} {st : (ℕ → ℕ → ℝ) × ℝ} (h : Peaks x D st) :
    st.2 ≠ 0 ↔ ∃ j i, D j i ∧ x j i ≠ 0 := by
  constructor
  · intro hne
    obtain ⟨j, i, hD, heq⟩ := h.attained.resolve_left hne
    exact ⟨j, i, hD, fun h0 => hne (by rw [← heq, h0, abs_zero])⟩
  · rintro ⟨j, i, hD, hne⟩
    exact ((abs_pos.2 hne).trans_le (h.bound j i hD)).ne'

theorem wellMixed_normalized {gain : ℕ → ℝ} {st : (ℕ → ℕ → ℝ) × ℝ} {out : ℕ → ℕ → ℝ}
    (hnormalize : m.mUseNormalize = true)
    (h : Peaks (stored m a gain) (fun j i => j < a.nchannels ∧ i < a.nsamples) st)
    (hout : ∀ j i, j < a.nchannels → i < a.nsamples → out j i = st.1 j i / st.2) :
    WellMixed m a st.2 out ↔ st.2 ≠ 0 := by
  constructor
  · intro hwell
    exact hwell.divides hnormalize
  · intro hne
    obtain ⟨j0, i0, ⟨hj0, hi0⟩, heq⟩ := h.attained.resolve_left hne
    have hpos : 0 < st.2 := lt_of_le_of_ne (heq ▸ abs_nonneg _) hne.symm
    constructor
    · intro j i hj hi
      rw [hout j i hj hi, h.written j i ⟨hj, hi⟩, ← abs_le, abs_div, abs_of_pos hpos, div_le_one hpos]
      exact h.bound j i ⟨hj, hi⟩
    · exact fun _ => hne
    · intro _
      refine ⟨j0, i0, hj0, hi0, ?_⟩
      rw [hout j0 i0 hj0 hi0, h.written j0 i0 ⟨hj0, hi0⟩, abs_div, abs_of_pos hpos, heq, div_self hne]

/-- With ten frames or more a mix is as it should be, exactly if it is not normalised or not all of it is zero. -/
theorem mix_well_iff (hrate : 0 < a.samplerate) (hch : 1 ≤ a.nchannels) (hsamples : 6144 ≤ a.nsamples)
    (hmode : ValidMode m) (bufferMix : ℕ → ℕ → ℝ) :
    ∃ levels mix maxpeak out, m.computeUndertoneLevel (a.bufferPgm 0) a.nsamples a.samplerate = some levels ∧
      m.mixed a bufferMix = some (some (mix, maxpeak)) ∧ m.mix a bufferMix = some (0, out) ∧
      (WellMixed m a maxpeak out ↔ (m.mUseNormalize = true → Sounds m a levels)) := by
  obtain ⟨timestamps, undertoneLevel, percentile10, hlevels, htimestamps, hlen⟩ :=
    computeUndertoneLevel_some (m := m) tenth_real (hop_eq hrate) (by omega) (a.bufferPgm 0)
  have hsome : ∀ i, ∃ level, m.undertoneGain a (timestamps, undertoneLevel, percentile10) i = some level := fun i =>
    undertoneGain_some _ (htimestamps.trans hlen.symm) (by simp only; omega) i
  choose gain hgain using hsome
  obtain ⟨st, hmixed, hpeaks⟩ := mixed_peaks hch hlevels hmode hgain bufferMix
  obtain ⟨mix, maxpeak⟩ := st
  cases hnormalize : m.mUseNormalize with
  | true =>
    obtain ⟨out, hout, hquotient⟩ := normalize_eq a maxpeak mix
    refine ⟨_, mix, maxpeak, out, hlevels, hmixed, then_eq hmixed ?_, ?_⟩
    · simp only [hnormalize, if_true]
      exact then_eq hout rfl
    · rw [wellMixed_normalized hnormalize hpeaks hquotient, hpeaks.ne_zero_iff, sounds_iff hgain]
      exact ⟨fun h _ => h, fun h => h rfl⟩
  | false =>
    refine ⟨_, mix, maxpeak, mix, hlevels, hmixed, then_eq hmixed ?_, ?_⟩
    · simp only [hnormalize]
      rfl
    · constructor
      · exact fun _ h => absurd h (by simp)
      · intro _
        have hoff : m.mUseNormalize ≠ true := by rw [hnormalize]; simp
        constructor
        · intro j i hj hi
          have hwritten : mix j i = stored m a gain j i := hpeaks.written j i ⟨hj, hi⟩
          rw [hwritten, ← abs_le]
          exact abs_clip_le _
        · exact fun h => absurd h hoff
        · exact fun h => absurd h hoff

end Mix

/-! ## Silence and a constant -/

/-- One channel at 44100 Hz, with the program constant and no undertone. -/
noncomputable def constant (x : ℝ) : Buffers ℝ := ⟨fun _ _ => x, 6144, 1, 44100, fun _ => 0⟩

theorem mix_well_constant : ∃ maxpeak out, (standard kDefaultMode).mix (constant 1) (fun _ _ => 0) = some (0, out) ∧
    WellMixed (standard kDefaultMode) (constant 1) maxpeak out := by
  obtain ⟨levels, mix, maxpeak, out, -, -, hmix, hwell⟩ := mix_well_iff (m := standard kDefaultMode) (a := constant 1)
    (by norm_num [constant]) le_rfl le_rfl (Or.inr (Or.inr rfl)) fun _ _ => 0
  refine ⟨maxpeak, out, hmix, hwell.2 fun _ => ⟨0, 0, (standard kDefaultMode).defUndertoneLevel, ?_, ?_, rfl, ?_⟩⟩
  · exact Nat.zero_lt_one
  · exact Nat.zero_lt_of_lt (by decide : 6143 < 6144)
  · have hpgm : 0 < (standard kDefaultMode).defPgmLevel := by
      refine Real.rpow_pos_of_pos ?_ _
      rw [lit_eq]
      norm_num
    have hprogram : (standard kDefaultMode).defUndertoneLevel * 0 + (standard kDefaultMode).defPgmLevel * 1 ≠ 0 := by
      rw [mul_zero, zero_add, mul_one]
      exact hpgm.ne'
    exact hprogram

/-- A program of zeros without undertone: every sample is divided by zero. -/
theorem mix_silence_divides : ∃ mix,
    (standard kDynamicLevelMode).mixed (constant 0) (fun _ _ => 0) = some (some (mix, 0)) ∧
      ∀ out, ¬WellMixed (standard kDynamicLevelMode) (constant 0) 0 out := by
  obtain ⟨timestamps, undertoneLevel, percentile10, hlevels, htimestamps, hlen⟩ :=
    computeUndertoneLevel_some (m := standard kDynamicLevelMode) (a := constant 0) tenth_real
      (hop_eq (by norm_num [constant])) (by norm_num [constant]) fun _ => 0
  have hsome : ∀ i, ∃ level, (standard kDynamicLevelMode).undertoneGain (constant 0)
      (timestamps, undertoneLevel, percentile10) i = some level := fun i =>
    undertoneGain_some _ (htimestamps.trans hlen.symm) (by
      rw [hlen]
      norm_num [constant]) i
  choose gain hgain using hsome
  obtain ⟨⟨mix, maxpeak⟩, hmixed, hpeaks⟩ := mixed_peaks le_rfl hlevels (Or.inl rfl) hgain fun _ _ => 0
  have hzero : maxpeak = 0 := by
    by_contra hne
    obtain ⟨j, i, -, hstored⟩ := hpeaks.ne_zero_iff.1 hne
    refine hstored (clip_eq_zero.2 ?_)
    show gain i * 0 + (standard kDynamicLevelMode).defPgmLevel * 0 = 0
    rw [mul_zero, mul_zero, add_zero]
  rw [hzero] at hmixed
  exact ⟨mix, hmixed, fun out hwell => hwell.divides rfl rfl⟩

end Mixer

end Undertone
