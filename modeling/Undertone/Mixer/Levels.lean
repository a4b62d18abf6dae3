import Undertone.Mixer.Energy

/-!
# The level of a sample

In the dynamic mode the level of a sample lies on the line through the levels of two neighbouring frames. Up to the
timestamp of the last frame the sample lies between the two frames; after it, for more than three hops, the last line is
prolonged. So all levels stay within the limits of the levels of the frames exactly if the level of the very last sample
does (`levels_within_iff`).
-/

namespace Undertone

open CountedLoop BoundedArray Globals

namespace Mixer

variable {F D : Type} [Doubles D] [Floats F D]

/-! ## The level that is mixed -/

/-- The segment that the loop is in at the sample `i`. -/
def eidxAt (timestamps : List F) (ntimestamps : ℤ) (samplerate : F) (i : ℕ) : Option ℤ :=
  forUpM 0 (i + 1) (segment timestamps ntimestamps samplerate) 0

/-- The interpolated level of the sample `i`. -/
def levelAt (timestamps undertoneLevel : List F) (samplerate : F) (i : ℕ) : Option F :=
  (eidxAt timestamps (undertoneLevel.length - 2 : ℤ) samplerate i).bind
    (interpolate timestamps undertoneLevel samplerate i)

omit [Doubles D] in
/-- The loop of the dynamic mode mixes every sample with its level. -/
theorem mixDynamic_eq (m : Mixer F) (a : Buffers F) (timestamps undertoneLevel : List F) (bufferMix : ℕ → ℕ → F) :
    m.mixDynamic a timestamps undertoneLevel bufferMix = forUpM 0 a.nsamples (fun i st =>
      (levelAt timestamps undertoneLevel a.samplerate i).bind fun level => m.mixSample a level i st)
      (bufferMix, Floats.lit 0) := by
  have hloop := forUpM_snd (g := segment timestamps (undertoneLevel.length - 2 : ℤ) a.samplerate)
    (f := fun i eidx st => (interpolate timestamps undertoneLevel a.samplerate i eidx).bind fun level =>
      m.mixSample a level i st)
    (b := fun i st => do
      let eidx ← segment timestamps (undertoneLevel.length - 2 : ℤ) a.samplerate i st.1
      let level ← interpolate timestamps undertoneLevel a.samplerate i eidx
      let mix ← m.mixSample a level i st.2
      return (eidx, mix))
    (fun i eidx st => by
      simp only [Option.bind_eq_bind, Option.pure_def, Option.bind_assoc]) a.nsamples 0 (bufferMix, Floats.lit 0)
  unfold mixDynamic
  simp only [levelAt, eidxAt, Option.bind_assoc]
  rw [← hloop, Option.map_eq_bind]
  rfl

/-! ## In exact arithmetic -/

section Exact

theorem hop_eq {samplerate : ℝ} (hrate : 0 < samplerate) : hop samplerate (Floats.lit 512 / samplerate) = 512 := by
  have hproduct : (Floats.lit 512 : ℝ) / samplerate * samplerate = 512 := by
    rw [div_mul_cancel₀ _ hrate.ne', lit_eq]
    norm_num
  have hhalf : (Doubles.lit 0.5 : ℝ) = 1 / 2 := by
    show (((0.5 : ℚ)) : ℝ) = 1 / 2
    norm_num
  unfold hop
  rw [hproduct, hhalf]
  refine truncate_eq (n := 512) ?_ ?_
  · show ((512 : ℕ) : ℝ) ≤ 512 + 1 / 2
    norm_num
  · show (512 : ℝ) + 1 / 2 < (512 : ℕ) + 1
    norm_num

/-- The timestamps of `n` frames. -/
noncomputable def hops (samplerate : ℝ) (n : ℕ) : List ℝ :=
  (List.range n).map fun i : ℕ => ofInt i * (Floats.lit 512 / samplerate)

theorem read_hops {samplerate : ℝ} {n k : ℕ} (hk : k < n) :
    read (hops samplerate n) k = some (k * (512 / samplerate)) := by
  have hlen : (hops samplerate n).length = n := by rw [hops, List.length_map, List.length_range]
  rw [read_cast (hlen.symm ▸ hk)]
  simp only [hops, List.getElem_map, List.getElem_range, ofInt_eq, lit_eq, Int.cast_natCast]
  norm_num

theorem computeEnergy_hops {samplerate : ℝ} (hrate : 0 < samplerate) (buffer : ℕ → ℝ) (nsamples : ℕ) :
    ∃ energy, computeEnergy buffer nsamples samplerate (Floats.lit 512 / samplerate) =
      some (hops samplerate (nsamples / 512 - 2), energy) ∧ energy.length = nsamples / 512 - 2 := by
  refine ⟨_, computeEnergy_eq (by decide) (hop_eq hrate) buffer nsamples, ?_⟩
  rw [List.length_map, List.length_range]

/-! ## The segment of a sample -/

section Segments

variable {samplerate : ℝ} {n i : ℕ}

/-- A sample has passed a timestamp when its number has passed the number of the first sample of the frame. -/
theorem passed_iff (hrate : 0 < samplerate) (k i : ℕ) :
    Floats.lt ((k : ℝ) * (512 / samplerate)) (ofInt i / samplerate) = true ↔ k * 512 < i := by
  have hcast : (k : ℝ) * (512 / samplerate) < (i : ℝ) / samplerate ↔ k * 512 < i := by
    rw [mul_div_assoc', div_lt_div_iff_of_pos_right hrate]
    exact_mod_cast Iff.rfl
  rw [ofInt_eq, Int.cast_natCast]
  exact decide_eq_true_iff.trans hcast

/-- From sample to sample the segment moves on by one at most: that is enough, since a hop is longer than a sample. -/
theorem segment_eq (hrate : 0 < samplerate) (hn : 2 ≤ n) (i : ℕ) :
    segment (hops samplerate n) (n - 2 : ℤ) samplerate i (min ((i - 2) / 512) (n - 2) : ℕ) =
      some ((min ((i - 1) / 512) (n - 2) : ℕ) : ℤ) := by
  have hread : read (hops samplerate n) (((min ((i - 2) / 512) (n - 2) : ℕ) : ℤ) + 1) =
      some (((min ((i - 2) / 512) (n - 2) + 1 : ℕ) : ℝ) * (512 / samplerate)) :=
    read_hops (k := min ((i - 2) / 512) (n - 2) + 1) (by omega)
  unfold segment
  rw [hread, Option.bind_eq_bind, Option.bind_some]
  refine congrArg some ?_
  by_cases hpassed : (min ((i - 2) / 512) (n - 2) + 1) * 512 < i
  · rw [if_pos ((passed_iff hrate _ _).2 hpassed)]
    omega
  · rw [if_neg fun h => hpassed ((passed_iff hrate _ _).1 h)]
    omega

theorem eidxAt_eq (hrate : 0 < samplerate) (hn : 2 ≤ n) (i : ℕ) :
    eidxAt (hops samplerate n) (n - 2 : ℤ) samplerate i = some ((min ((i - 1) / 512) (n - 2) : ℕ) : ℤ) := by
  unfold eidxAt
  have hrun : ∀ k, forUpM 0 k (segment (hops samplerate n) (n - 2 : ℤ) samplerate) 0 =
      some ((min ((k - 2) / 512) (n - 2) : ℕ) : ℤ) := by
    intro k
    induction k with
    | zero => simp [forUpM, iter]
    | succ k ih =>
      rw [forUpM_zero_succ, ih, Option.bind_some, segment_eq hrate hn]
      rfl
  exact hrun (i + 1)

end Segments

/-! ## Lines -/

section Lines

variable {lo hi x y s t : ℝ}

/-- A line that is within the limits at `0` and at `t` is so between. -/
theorem line_within (hx : lo ≤ x ∧ x ≤ hi) (hend : lo ≤ x + t * (y - x) ∧ x + t * (y - x) ≤ hi)
    (h0 : 0 ≤ s) (hs : s ≤ t) : lo ≤ x + s * (y - x) ∧ x + s * (y - x) ≤ hi := by
  rcases le_total x y with hxy | hxy
  · have hup : s * (y - x) ≤ t * (y - x) := mul_le_mul_of_nonneg_right hs (sub_nonneg.2 hxy)
    have hpos : 0 ≤ s * (y - x) := mul_nonneg h0 (sub_nonneg.2 hxy)
    constructor
    · linarith
    · linarith
  · have hdown : t * (y - x) ≤ s * (y - x) := mul_le_mul_of_nonpos_right hs (sub_nonpos.2 hxy)
    have hneg : s * (y - x) ≤ 0 := mul_nonpos_of_nonneg_of_nonpos h0 (sub_nonpos.2 hxy)
    constructor
    · linarith
    · linarith

end Lines

/-! ## All samples -/

section All

variable {samplerate : ℝ} {n : ℕ} {undertoneLevel : List ℝ}

/-- How far the sample is in its segment, in hops. -/
noncomputable def interp (n i : ℕ) : ℝ := i / 512 - (min ((i - 1) / 512) (n - 2) : ℕ)

theorem levelAt_eq (hrate : 0 < samplerate) (hn : 2 ≤ n) (hlen : undertoneLevel.length = n) (i : ℕ) {x y : ℝ}
    (hx : undertoneLevel[min ((i - 1) / 512) (n - 2)]? = some x)
    (hy : undertoneLevel[min ((i - 1) / 512) (n - 2) + 1]? = some y) :
    levelAt (hops samplerate n) undertoneLevel samplerate i = some (x + interp n i * (y - x)) := by
  unfold levelAt
  rw [hlen, eidxAt_eq hrate hn, Option.bind_some]
  unfold interp
  generalize hk : min ((i - 1) / 512) (n - 2) = k at hx hy ⊢
  have hkn : k + 1 < n := by omega
  have hread : ∀ {j : ℕ} {z : ℝ}, undertoneLevel[j]? = some z → read undertoneLevel j = some z := fun hz =>
    (if_pos (Int.natCast_nonneg _)).trans hz
  have hread' : read undertoneLevel ((k : ℤ) + 1) = some y := hread (j := k + 1) hy
  have hnext : read (hops samplerate n) ((k : ℤ) + 1) = some (((k + 1 : ℕ) : ℝ) * (512 / samplerate)) :=
    read_hops (k := k + 1) hkn
  unfold interpolate
  rw [read_hops (by omega), Option.bind_eq_bind, Option.bind_some, hnext, Option.bind_some, hread hx, Option.bind_some,
    hread', Option.bind_some]
  refine congrArg some ?_
  have hfrac : (ofInt i / samplerate - (k : ℝ) * (512 / samplerate)) /
      (((k + 1 : ℕ) : ℝ) * (512 / samplerate) - (k : ℝ) * (512 / samplerate)) = i / 512 - k := by
    rw [ofInt_eq]
    push_cast
    field_simp
    ring
  rw [hfrac, lit_eq]
  push_cast
  ring

/-- From the first frame to the last one a sample is between the two frames of its segment. -/
theorem interp_range (hn : 2 ≤ n) (i : ℕ) : 0 ≤ interp n i ∧ (i ≤ (n - 1) * 512 → interp n i ≤ 1) ∧
    ((n - 1) * 512 < i → interp n i = (i : ℝ) / 512 - (n - 2)) := by
  unfold interp
  refine ⟨?_, fun hi => ?_, fun hi => ?_⟩
  · have hbegin : min ((i - 1) / 512) (n - 2) * 512 ≤ i :=
      (Nat.mul_le_mul_right 512 (min_le_left _ _)).trans ((Nat.div_mul_le_self _ _).trans (Nat.sub_le i 1))
    have hcast := (Nat.cast_le (α := ℝ)).2 hbegin
    rw [Nat.cast_mul, Nat.cast_ofNat] at hcast
    linarith
  · have hend : i ≤ (min ((i - 1) / 512) (n - 2) + 1) * 512 := by
      rcases le_total ((i - 1) / 512) (n - 2) with hle | hle
      · rw [min_eq_left hle]
        clear hi
        omega
      · rw [min_eq_right hle, show n - 2 + 1 = n - 1 by omega]
        exact hi
    have hcast := (Nat.cast_le (α := ℝ)).2 hend
    rw [Nat.cast_mul, Nat.cast_succ, Nat.cast_ofNat] at hcast
    linarith
  · have hlast : min ((i - 1) / 512) (n - 2) = n - 2 := by omega
    rw [hlast, Nat.cast_sub hn, Nat.cast_ofNat]

/-- Up to the last frame a level is between those of two frames. -/
theorem levelAt_between (hrate : 0 < samplerate) (hn : 2 ≤ n) (hlen : undertoneLevel.length = n) {lo hi : ℝ}
    (hlevel : ∀ level ∈ undertoneLevel, lo ≤ level ∧ level ≤ hi) {i : ℕ} (hi' : i ≤ (n - 1) * 512) :
    ∃ level, levelAt (hops samplerate n) undertoneLevel samplerate i = some level ∧ lo ≤ level ∧ level ≤ hi := by
  have hk : min ((i - 1) / 512) (n - 2) + 1 < undertoneLevel.length := by
    have hle := min_le_right ((i - 1) / 512) (n - 2)
    omega
  have hk' : min ((i - 1) / 512) (n - 2) < undertoneLevel.length := by omega
  obtain ⟨h0, hbetween, -⟩ := interp_range hn i
  refine ⟨_, levelAt_eq hrate hn hlen i (List.getElem?_eq_getElem hk') (List.getElem?_eq_getElem hk), ?_⟩
  refine line_within (hlevel _ (List.getElem_mem hk')) ?_ h0 (hbetween hi')
  rw [one_mul, add_sub_cancel]
  exact hlevel _ (List.getElem_mem hk)

/-- After the last frame the levels go on along the line through the last two. -/
theorem levelAt_after (hrate : 0 < samplerate) (hn : 2 ≤ n) (hlen : undertoneLevel.length = n) {x y : ℝ}
    (hx : undertoneLevel[n - 2]? = some x) (hy : undertoneLevel[n - 1]? = some y) {i : ℕ} (hi : (n - 1) * 512 < i) :
    levelAt (hops samplerate n) undertoneLevel samplerate i = some (x + ((i : ℝ) / 512 - (n - 2)) * (y - x)) := by
  have hseg : min ((i - 1) / 512) (n - 2) = n - 2 := by omega
  rw [← (interp_range hn i).2.2 hi]
  apply levelAt_eq hrate hn hlen i
  · rw [hseg]
    exact hx
  · rw [hseg, show n - 2 + 1 = n - 1 by omega]
    exact hy

/-- With ten frames or more all levels are within the limits of the levels of the frames exactly if the line through the
last two, `x` and `y`, is when it is prolonged to the last sample. -/
theorem levels_within_iff (hrate : 0 < samplerate) {buffer : ℕ → ℝ} {nsamples : ℕ} {timestamps energy : List ℝ}
    (henergy : computeEnergy buffer nsamples samplerate (Floats.lit 512 / samplerate) = some (timestamps, energy))
    (h10 : 10 ≤ energy.length) (hlen : undertoneLevel.length = energy.length) {lo hi x y : ℝ}
    (hlevel : ∀ level ∈ undertoneLevel, lo ≤ level ∧ level ≤ hi)
    (hx : undertoneLevel[undertoneLevel.length - 2]? = some x)
    (hy : undertoneLevel[undertoneLevel.length - 1]? = some y) :
    (∀ i < nsamples, ∃ level, levelAt timestamps undertoneLevel samplerate i = some level ∧ lo ≤ level ∧ level ≤ hi) ↔
      lo - x ≤ (((nsamples : ℝ) - 1) / 512 - (undertoneLevel.length - 2)) * (y - x) ∧
        (((nsamples : ℝ) - 1) / 512 - (undertoneLevel.length - 2)) * (y - x) ≤ hi - x := by
  obtain ⟨energy', henergy', hlen'⟩ := computeEnergy_hops hrate buffer nsamples
  obtain ⟨rfl, rfl⟩ := Prod.mk.inj (Option.some.inj (henergy'.symm.trans henergy))
  rw [← hlen'] at henergy'
  generalize hn : energy'.length = n at *
  rw [hlen] at hx hy ⊢
  have hlast : (n - 1) * 512 < nsamples - 1 := by omega
  have hcast : ((nsamples - 1 : ℕ) : ℝ) = (nsamples : ℝ) - 1 := by
    rw [Nat.cast_sub (by omega), Nat.cast_one]
  have hafter : ∀ i, (n - 1) * 512 < i → levelAt (hops samplerate (nsamples / 512 - 2)) undertoneLevel samplerate i =
      some (x + ((i : ℝ) / 512 - (n - 2)) * (y - x)) := by
    intro i hi
    rw [← hlen']
    exact levelAt_after hrate (by omega) hlen hx hy hi
  constructor
  · intro hall
    obtain ⟨level, hlevel', hlo, hhi⟩ := hall (nsamples - 1) (by omega)
    obtain rfl := Option.some.inj ((hafter _ hlast).symm.trans hlevel')
    rw [hcast] at hlo hhi
    constructor
    · linarith
    · linarith
  · rintro ⟨hlo, hhi⟩ i hi
    by_cases hi' : i ≤ (n - 1) * 512
    · rw [← hlen']
      exact levelAt_between hrate (by omega) hlen hlevel hi'
    · refine ⟨_, hafter i (by omega), ?_⟩
      have h0 : (0 : ℝ) ≤ (i : ℝ) / 512 - (n - 2) := by
        rw [← (interp_range (by omega) i).2.2 (by omega)]
        exact (interp_range (by omega) i).1
      have hle : (i : ℝ) ≤ (nsamples : ℝ) - 1 := by
        rw [← hcast]
        exact_mod_cast Nat.le_sub_one_of_lt hi
      refine line_within (t := ((nsamples : ℝ) - 1) / 512 - (n - 2)) (hlevel x (List.mem_of_getElem? hx))
        ⟨by linarith, by linarith⟩ h0 ?_
      linarith

/-- Ten frames at 44100 Hz, with levels between 0 and 1 that end with a slow rise. -/
theorem levels_within_rise : ∃ timestamps energy,
    computeEnergy (fun _ => (0 : ℝ)) 6144 44100 (Floats.lit 512 / 44100) = some (timestamps, energy) ∧
      ∀ i < 6144, ∃ level, levelAt timestamps [0, 1, 1, 0, 1 / 4, 3 / 4, 1, 0, 1 / 2, 5 / 8] 44100 i = some level ∧
        0 ≤ level ∧ level ≤ 1 := by
  obtain ⟨energy, henergy, hlen⟩ := computeEnergy_hops (show (0 : ℝ) < 44100 by norm_num) (fun _ => 0) 6144
  refine ⟨_, energy, henergy, ?_⟩
  refine (levels_within_iff (x := 1 / 2) (y := 5 / 8) (by norm_num) henergy (by omega) ?_ ?_ ?_ ?_).2 ?_
  · rw [hlen]
    rfl
  · intro level hlevel
    simp only [List.mem_cons, List.not_mem_nil, or_false] at hlevel
    rcases hlevel with rfl | rfl | rfl | rfl | rfl | rfl | rfl | rfl | rfl | rfl <;> norm_num
  · rfl
  · rfl
  · norm_num

/-- The last level is 1 and the one before is 0: four hops later the level is almost 4. -/
theorem levels_overshoot : ∃ timestamps energy,
    computeEnergy (fun _ => (0 : ℝ)) 6144 44100 (Floats.lit 512 / 44100) = some (timestamps, energy) ∧
      energy.length = 10 ∧
        ∃ level, levelAt timestamps [0, 0, 0, 0, 0, 0, 0, 0, 0, 1] 44100 6143 = some level ∧ 3 < level := by
  obtain ⟨energy, henergy, hlen⟩ := computeEnergy_hops (show (0 : ℝ) < 44100 by norm_num) (fun _ => 0) 6144
  have hframes : 6144 / 512 - 2 = 10 := by norm_num
  have hsegment : min ((6143 - 1) / 512) (10 - 2) = 8 := by norm_num
  rw [hframes] at henergy
  have hlevel : levelAt (hops 44100 10) [0, 0, 0, 0, 0, 0, 0, 0, 0, 1] 44100 6143 =
      some (0 + interp 10 6143 * (1 - 0)) := by
    refine levelAt_eq (by norm_num) (by norm_num) ?_ 6143 ?_ ?_
    · rfl
    · rw [hsegment]
      rfl
    · rw [hsegment]
      rfl
  refine ⟨_, energy, henergy, hlen.trans hframes, _, hlevel, ?_⟩
  rw [(interp_range (by norm_num) 6143).2.2 (by norm_num)]
  norm_num

end All

end Exact

end Mixer

end Undertone
