import Undertone.Mixer.Levels

/-!
# The accesses of the mixer

All vectors have an entry for each frame, and each loop stays in them from three frames on. The percentile is looked up
a tenth of the frames before the end of a sorted vector: with fewer than ten frames that is the end itself. `mix` is
thus safe exactly from ten frames on, whatever its mode (`mix_safe_iff`).
-/

namespace Undertone

open CountedLoop BoundedArray Globals

namespace Mixer

variable {F D : Type} [Doubles D] [Floats F D]

/-! ## The statistics of the program -/

section Statistics

omit [Doubles D] in
theorem smooth_some {v : List F} (hv : 2 ≤ v.length) (window : ℤ) (useNonZero : Bool) :
    ∃ v', smooth v window useNonZero = some v' ∧ v'.length = v.length := by
  have hne : v.length ≠ 0 := by omega
  unfold smooth
  rw [if_neg hne]
  refine forUpM_total (fun _ (v' : List F) => v'.length = v.length) (by omega) rfl fun i v' hi hi' hlen => ?_
  have hinner : ∃ p : F × ℤ, forUpM (max 0 ((i : ℤ) - window.tdiv 2)).toNat
      (min (v'.length - 1 : ℤ) (i + window.tdiv 2) + 1).toNat (fun k (p : F × ℤ) => do
        let x ← read v k
        return (p.1 + x, if Floats.lt (Floats.lit 0) x then p.2 + 1 else p.2)) (Floats.lit 0, 0) = some p := by
    refine forUpM_some fun k p _ hk => ?_
    have hlt : k < v.length := by omega
    rw [read_cast hlt]
    exact ⟨_, rfl⟩
  obtain ⟨⟨s, den⟩, hp⟩ := hinner
  have hlt : i < v'.length := by omega
  cases useNonZero with
  | true =>
    refine ⟨_, then_eq hp (then_eq (read_cast hlt) (write_cast hlt _)), ?_⟩
    rw [List.length_set, hlen]
  | false =>
    refine ⟨_, then_eq hp (write_cast hlt _), ?_⟩
    rw [List.length_set, hlen]

variable [Mixing F D]

/-- What the code relies on: a tenth of the frames is a frame or more from ten on, and never more than all. -/
def Tenth (F : Type) {D : Type} [Doubles D] [Floats F D] [Mixing F D] : Prop :=
  ∀ n : ℕ, (1 ≤ per10Idx (F := F) n ↔ 10 ≤ n) ∧ per10Idx (F := F) n ≤ n

theorem computeDynamicsStability_some (htenth : Tenth F) (m : Mixer F) (energy : List F) (h10 : 10 ≤ energy.length)
    (frameTime : F) : ∃ energyDB st p10, m.computeDynamicsStability energy frameTime = some (energyDB, st, p10) ∧
      energyDB.length = energy.length := by
  unfold computeDynamicsStability
  generalize hDB : energy.map (fun x : F => (Floats.lit 10 : F) *
    Mixing.log10f (Floats.ofDouble (Floats.toDouble x + Doubles.lit (1 / 10 ^ 200)))) = energyDB
  have hlen : energyDB.length = energy.length := by rw [← hDB, List.length_map]
  obtain ⟨hone, hall⟩ := htenth energyDB.length
  have hone' := hone.2 (by omega)
  obtain ⟨p10, hp10⟩ : ∃ p10, read (energyDB.mergeSort fun x y => !Floats.lt y x)
      ((energyDB.mergeSort fun x y => !Floats.lt y x).length -
        per10Idx (F := F) (energyDB.mergeSort fun x y => !Floats.lt y x).length) = some p10 := by
    refine read_some ?_ ?_
    · rw [List.length_mergeSort]
      omega
    · rw [List.length_mergeSort]
      omega
  obtain ⟨st0, hst0, hlen0⟩ := write_some (v := energyDB) le_rfl (by omega) (Floats.lit 0)
  obtain ⟨st1, hst1, hlen1⟩ := forUpM_total (g := fun i st => do
      let second ← read energyDB (i + 2)
      let next ← read energyDB (i + 1)
      let here ← read energyDB i
      let before ← read energyDB (i - 1)
      write st i (stability (Floats.toDouble p10) before here next second)) (s := st0)
    (fun _ (st : List F) => st.length = energyDB.length) (show 1 ≤ energy.length - 2 by omega) hlen0
    fun i st hi hi' hst => by
      obtain ⟨second, hsecond⟩ := read_some (v := energyDB) (i := i + 2) (by omega) (by omega)
      obtain ⟨next, hnext⟩ := read_some (v := energyDB) (i := i + 1) (by omega) (by omega)
      obtain ⟨here, hhere⟩ := read_some (v := energyDB) (i := i) (by omega) (by omega)
      obtain ⟨before, hbefore⟩ := read_some (v := energyDB) (i := i - 1) (by omega) (by omega)
      obtain ⟨st', hst', hlen'⟩ := write_some (v := st) (i := i) (by omega) (by omega)
        (stability (Floats.toDouble p10) before here next second)
      exact ⟨st', then_eq hsecond (then_eq hnext (then_eq hhere (then_eq hbefore hst'))), hlen'.trans hst⟩
  obtain ⟨st2, hst2, hlen2⟩ := write_some (v := st1) (i := st1.length - 2) (by omega) (by omega) (Floats.lit 0)
  obtain ⟨st3, hst3, hlen3⟩ := write_some (v := st2) (i := st2.length - 1) (by omega) (by omega) (Floats.lit 0)
  obtain ⟨st4, hst4, hlen4⟩ := forUpM_total (g := fun i st => do
      let x ← read st i
      write st i (x * x)) (s := st3) (fun _ (st : List F) => st.length = energyDB.length)
    (Nat.zero_le (energy.length - 1)) (by omega) fun i st _ hi hst => by
      obtain ⟨x, hx⟩ := read_some (v := st) (i := i) (by omega) (by omega)
      obtain ⟨st', hst', hlen'⟩ := write_some (v := st) (i := i) (by omega) (by omega) (x * x)
      exact ⟨st', then_eq hx hst', hlen'.trans hst⟩
  obtain ⟨st5, hst5, -⟩ := smooth_some (v := st4) (by omega)
    (Doubles.trunc (Floats.toDouble (m.mSmoothTime / frameTime))) false
  obtain ⟨energyDB', hsmooth, hlen'⟩ := smooth_some (v := energyDB) (by omega)
    (Doubles.trunc (Floats.toDouble (m.mSmoothTime / frameTime))) false
  refine ⟨energyDB', st5, p10, ?_, hlen'.trans hlen⟩
  exact then_eq hp10 (then_eq hst0 (then_eq hst1 (then_eq hst2 (then_eq hst3 (then_eq hst4 (then_eq hst5
    (then_eq hsmooth rfl)))))))

/-- The percentile of fewer than ten frames is read at the end of the vector. -/
theorem computeDynamicsStability_inv (htenth : Tenth F) {m : Mixer F} {energy : List F} {frameTime : F}
    {r : List F × List F × F} (h : m.computeDynamicsStability energy frameTime = some r) : 10 ≤ energy.length := by
  obtain ⟨p10, hp10, -⟩ := Option.bind_eq_some_iff.1 h
  have hin := (read_inv hp10).2
  rw [List.length_mergeSort, List.length_map] at hin
  refine (htenth _).1.1 ?_
  omega

end Statistics

/-! ## The mix -/

section Mix

variable (m : Mixer F) (a : Buffers F)

omit [Doubles D] in
theorem mixSample_some (level : F) {i : ℕ} (hi : i < a.nsamples) (st : (ℕ → ℕ → F) × F) :
    ∃ st', m.mixSample a level i st = some st' := by
  refine forUpM_some fun j st _ hj => ?_
  exact ⟨_, then_eq (get_cast hi _) (then_eq (get2_cast hj hi _) (then_eq (put2_cast hj hi _ _) rfl))⟩

omit [Doubles D] in
theorem normalize_some (maxpeak : F) (bufferMix : ℕ → ℕ → F) :
    ∃ bufferMix', normalize a maxpeak bufferMix = some bufferMix' :=
  forUpM_some fun _ _ _ hi => forUpM_some fun _ bufferMix _ hj =>
    ⟨_, then_eq (get2_cast hj hi bufferMix) (put2_cast hj hi _ _)⟩

section Segments

variable {timestamps undertoneLevel : List F}

omit [Doubles D] in
/-- The segment is one of those between two frames. -/
theorem eidxAt_some (h : timestamps.length = undertoneLevel.length) (h2 : 2 ≤ undertoneLevel.length) (samplerate : F)
    (i : ℕ) : ∃ eidx, eidxAt timestamps (undertoneLevel.length - 2 : ℤ) samplerate i = some eidx ∧
      0 ≤ eidx ∧ eidx ≤ undertoneLevel.length - 2 := by
  refine forUpM_total (fun _ (eidx : ℤ) => 0 ≤ eidx ∧ eidx ≤ undertoneLevel.length - 2) (Nat.zero_le _)
    ⟨le_rfl, by omega⟩ fun i eidx _ _ ⟨h0, hle⟩ => ?_
  obtain ⟨next, hnext⟩ := read_some (v := timestamps) (i := eidx + 1) (by omega) (by omega)
  refine ⟨_, then_eq hnext rfl, ?_⟩
  split <;> omega

omit [Doubles D] in
theorem levelAt_some (h : timestamps.length = undertoneLevel.length) (h2 : 2 ≤ undertoneLevel.length) (samplerate : F)
    (i : ℕ) : ∃ level, levelAt timestamps undertoneLevel samplerate i = some level := by
  obtain ⟨eidx, heidx, h0, hle⟩ := eidxAt_some h h2 samplerate i
  unfold levelAt
  rw [heidx, Option.bind_some]
  obtain ⟨t, ht⟩ := read_some (v := timestamps) (i := eidx) h0 (by omega)
  obtain ⟨t', ht'⟩ := read_some (v := timestamps) (i := eidx + 1) (by omega) (by omega)
  obtain ⟨x, hx⟩ := read_some (v := undertoneLevel) (i := eidx) h0 (by omega)
  obtain ⟨x', hx'⟩ := read_some (v := undertoneLevel) (i := eidx + 1) (by omega) (by omega)
  exact ⟨_, then_eq ht (then_eq ht' (then_eq hx (then_eq hx' rfl)))⟩

end Segments

variable [Mixing F D] {m a}

/-- The levels of ten frames or more. -/
theorem computeUndertoneLevel_some (htenth : Tenth F) (hhop : hop a.samplerate (Floats.lit 512 / a.samplerate) = 512)
    (h10 : 10 ≤ a.nsamples / 512 - 2) (buffer : ℕ → F) :
    ∃ timestamps undertoneLevel percentile10, m.computeUndertoneLevel buffer a.nsamples a.samplerate =
      some (timestamps, undertoneLevel, percentile10) ∧ timestamps.length = a.nsamples / 512 - 2 ∧
        undertoneLevel.length = a.nsamples / 512 - 2 := by
  have henergy := computeEnergy_eq (by decide) hhop buffer a.nsamples
  obtain ⟨energyDB, st, p10, hdynamics, hlen⟩ := computeDynamicsStability_some htenth m
    ((List.range (a.nsamples / 512 - 2)).map fun i =>
      frameEnergy 512 (hanning (4 * 512 + 1) : List F × F).1 buffer i / (hanning (4 * 512 + 1) : List F × F).2)
    (by rwa [List.length_map, List.length_range]) (Floats.lit 512 / a.samplerate)
  refine ⟨_, _, p10, then_eq henergy (then_eq hdynamics rfl), ?_, ?_⟩
  · rw [List.length_map, List.length_range]
  · rw [List.length_map, hlen, List.length_map, List.length_range]

/-- The gain for the undertone at the sample `i`, from what `computeUndertoneLevel` stores. -/
def undertoneGain (m : Mixer F) (a : Buffers F) (levels : List F × List F × F) (i : ℕ) : Option F :=
  if m.mMode = kDynamicLevelMode then levelAt levels.1 levels.2.1 a.samplerate i
  else if m.mMode = kGlobalLevelMode then some (m.globalUndertoneLevel levels.2.2)
  else some m.defUndertoneLevel

/-- One of the three modes. -/
def ValidMode (m : Mixer F) : Prop :=
  m.mMode = kDynamicLevelMode ∨ m.mMode = kGlobalLevelMode ∨ m.mMode = kDefaultMode

/-- The three loops are one, but for the gain. -/
theorem mixed_eq (hch : 1 ≤ a.nchannels) {levels : List F × List F × F}
    (hlevels : m.computeUndertoneLevel (a.bufferPgm 0) a.nsamples a.samplerate = some levels) (hmode : ValidMode m)
    (bufferMix : ℕ → ℕ → F) : m.mixed a bufferMix = (forUpM 0 a.nsamples (fun i st =>
      (m.undertoneGain a levels i).bind fun level => m.mixSample a level i st) (bufferMix, Floats.lit 0)).map some := by
  obtain ⟨timestamps, undertoneLevel, percentile10⟩ := levels
  refine then_eq (get_cast hch _) (then_eq hlevels ?_)
  unfold undertoneGain
  by_cases hdynamic : m.mMode = kDynamicLevelMode
  · simp only [if_pos hdynamic]
    rw [mixDynamic_eq]
  · by_cases hglobal : m.mMode = kGlobalLevelMode
    · simp only [if_neg hdynamic, if_pos hglobal, Option.bind_some]
      rfl
    · have hdefault : m.mMode = kDefaultMode := by
        rcases hmode with h | h | h
        · exact absurd h hdynamic
        · exact absurd h hglobal
        · exact h
      simp only [if_neg hdynamic, if_neg hglobal, if_pos hdefault, Option.bind_some]
      rfl

omit [Doubles D] [Mixing F D] in
theorem undertoneGain_some (levels : List F × List F × F) (h : levels.1.length = levels.2.1.length)
    (h2 : 2 ≤ levels.2.1.length) (i : ℕ) : ∃ level, m.undertoneGain a levels i = some level := by
  unfold undertoneGain
  by_cases hdynamic : m.mMode = kDynamicLevelMode
  · rw [if_pos hdynamic]
    exact levelAt_some h h2 a.samplerate i
  · rw [if_neg hdynamic]
    split
    · exact ⟨_, rfl⟩
    · exact ⟨_, rfl⟩

theorem mixed_some (htenth : Tenth F) (hhop : hop a.samplerate (Floats.lit 512 / a.samplerate) = 512)
    (hch : 1 ≤ a.nchannels) (h10 : 10 ≤ a.nsamples / 512 - 2) (bufferMix : ℕ → ℕ → F) :
    ∃ r, m.mixed a bufferMix = some r := by
  obtain ⟨timestamps, undertoneLevel, percentile10, hlevels, htimestamps, hlen⟩ :=
    computeUndertoneLevel_some (m := m) htenth hhop h10 (a.bufferPgm 0)
  by_cases hmode : ValidMode m
  · obtain ⟨st, hst⟩ : ∃ st, forUpM 0 a.nsamples (fun i st =>
        (m.undertoneGain a (timestamps, undertoneLevel, percentile10) i).bind fun level => m.mixSample a level i st)
          (bufferMix, Floats.lit 0) = some st := by
      refine forUpM_some fun i st _ hi => ?_
      obtain ⟨level, hlevel⟩ := undertoneGain_some (m := m) (a := a) (timestamps, undertoneLevel, percentile10)
        (htimestamps.trans hlen.symm) (by simp only; omega) i
      obtain ⟨st', hst'⟩ := mixSample_some m a level hi st
      exact ⟨st', by rw [hlevel, Option.bind_some, hst']⟩
    exact ⟨some st, by rw [mixed_eq hch hlevels hmode, hst, Option.map_some]⟩
  · refine ⟨none, then_eq (get_cast hch _) (then_eq hlevels ?_)⟩
    simp only
    rw [if_neg fun h => hmode (Or.inl h), if_neg fun h => hmode (Or.inr (Or.inl h)),
      if_neg fun h => hmode (Or.inr (Or.inr h))]
    rfl

theorem mix_some (htenth : Tenth F) (hhop : hop a.samplerate (Floats.lit 512 / a.samplerate) = 512)
    (hch : 1 ≤ a.nchannels) (h10 : 10 ≤ a.nsamples / 512 - 2) (bufferMix : ℕ → ℕ → F) :
    ∃ r, m.mix a bufferMix = some r := by
  obtain ⟨r, hmixed⟩ := mixed_some (m := m) htenth hhop hch h10 bufferMix
  cases r with
  | none => exact ⟨_, then_eq hmixed rfl⟩
  | some st =>
    obtain ⟨bufferMix', maxpeak⟩ := st
    cases hnormalize : m.mUseNormalize with
    | true =>
      obtain ⟨bufferMix'', hbuffer⟩ := normalize_some a maxpeak bufferMix'
      refine ⟨(0, bufferMix''), then_eq hmixed ?_⟩
      simp only [hnormalize, if_true]
      exact then_eq hbuffer rfl
    | false =>
      refine ⟨(0, bufferMix'), then_eq hmixed ?_⟩
      simp only [hnormalize]
      rfl

/-- The percentile that is looked up first is there only with ten frames or more. -/
theorem mix_inv (htenth : Tenth F) (hhop : hop a.samplerate (Floats.lit 512 / a.samplerate) = 512)
    {bufferMix : ℕ → ℕ → F} {r : ℤ × (ℕ → ℕ → F)} (h : m.mix a bufferMix = some r) : 10 ≤ a.nsamples / 512 - 2 := by
  obtain ⟨r', hmixed, -⟩ := Option.bind_eq_some_iff.1 h
  obtain ⟨buffer, hbuffer, hrest⟩ := Option.bind_eq_some_iff.1 hmixed
  obtain ⟨levels, hlevels, -⟩ := Option.bind_eq_some_iff.1 hrest
  obtain ⟨energies, henergy, hrest⟩ := Option.bind_eq_some_iff.1 hlevels
  obtain ⟨dynamics, hdynamics, -⟩ := Option.bind_eq_some_iff.1 hrest
  have h10 := computeDynamicsStability_inv htenth hdynamics
  rw [computeEnergy_eq (h := 512) (by decide) hhop] at henergy
  obtain rfl := Option.some.inj henergy
  rwa [List.length_map, List.length_range] at h10

/-- Every access of `mix` is in range exactly if there are samples for ten frames. -/
theorem mix_safe_iff (htenth : Tenth F) (hhop : hop a.samplerate (Floats.lit 512 / a.samplerate) = 512)
    (hch : 1 ≤ a.nchannels) (bufferMix : ℕ → ℕ → F) : (m.mix a bufferMix).isSome ↔ 6144 ≤ a.nsamples := by
  constructor
  · intro h
    obtain ⟨r, hmix⟩ := Option.isSome_iff_exists.1 h
    have h10 := mix_inv htenth hhop hmix
    omega
  · intro h
    exact Option.isSome_iff_exists.2 (mix_some htenth hhop hch (by omega) bufferMix)

end Mix

/-! ## In exact arithmetic -/

section Exact

theorem per10Idx_real (n : ℕ) : per10Idx (F := ℝ) n = (n / 10 : ℕ) := by
  have htenth : (ofInt n : ℝ) * Floats.lit 0.1 = n / 10 := by
    rw [ofInt_eq, lit_eq]
    push_cast
    ring
  have hfloor : ⌊(n : ℝ) / 10⌋ = ((n / 10 : ℕ) : ℤ) := by
    have hdiv := Int.floor_div_natCast (n : ℝ) 10
    rw [Nat.cast_ofNat, Int.floor_natCast] at hdiv
    exact hdiv
  unfold per10Idx
  rw [htenth]
  refine truncate_eq ?_ ?_
  · show ((n / 10 : ℕ) : ℝ) ≤ (⌊(n : ℝ) / 10⌋ : ℝ)
    rw [hfloor, Int.cast_natCast]
  · show (⌊(n : ℝ) / 10⌋ : ℝ) < ((n / 10 : ℕ) : ℝ) + 1
    rw [hfloor, Int.cast_natCast]
    exact lt_add_one _

theorem tenth_real : Tenth ℝ := by
  intro n
  rw [per10Idx_real]
  omega

/-- The mixer as it is constructed, with one of its modes. -/
noncomputable def standard (mMode : ℤ) : Mixer ℝ :=
  ⟨Floats.lit (-3), Floats.lit 0, Floats.lit 0.35, Floats.lit (-20), mMode, true⟩

/-- One channel of silence at 44100 Hz. -/
noncomputable def silent (nsamples : ℕ) : Buffers ℝ := ⟨fun _ _ => 0, nsamples, 1, 44100, fun _ => 0⟩

theorem mix_safe_silent : ((standard kDynamicLevelMode).mix (silent 6144) fun _ _ => 0).isSome :=
  (mix_safe_iff tenth_real (hop_eq (by norm_num [silent])) le_rfl _).2 le_rfl

/-- One sample less, and the percentile is read past the end. -/
theorem mix_unsafe_silent : (standard kDefaultMode).mix (silent 6143) (fun _ _ => 0) = none := by
  rw [← Option.not_isSome_iff_eq_none]
  intro h
  obtain ⟨r, hmix⟩ := Option.isSome_iff_exists.1 h
  have h10 := mix_inv tenth_real (hop_eq (by norm_num [silent])) hmix
  have hframes : (silent 6143).nsamples / 512 - 2 = 9 := by norm_num [silent]
  omega

end Exact

end Mixer

end Undertone
