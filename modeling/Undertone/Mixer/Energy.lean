import Undertone.Mixer.Defs
import Mathlib.Data.List.GetD

/-!
# The energy of the frames

The frames end so long before the signal that no window of `computeEnergy` goes past its end: the branch for such
windows is never taken, and every frame has the energy of its window (`energyFrames_windowed`). The window of the first
frames begins before the signal, and its first weights are left out.
-/

namespace Undertone

open CountedLoop BoundedArray Globals

namespace Mixer

variable {F D : Type} [Doubles D] [Floats F D]

/-! ## One window -/

section Window

variable {h : ℕ} {w : List F} {buffer : ℕ → F} {nsamples i : ℕ}

/-- The sum of a window, from the beginning of the signal on. -/
def frameEnergy (h : ℕ) (w : List F) (buffer : ℕ → F) (i : ℕ) : F :=
  forUp ((i - 2) * h) ((i + 2) * h + 1)
    (fun k en => en + buffer k * buffer k * w.getD (k + 2 * h - i * h) (Floats.lit 0)) (Floats.lit 0)

theorem ws_eq (h : ℕ) : ws h = 4 * h := by
  unfold ws
  rw [Int.tmod_eq_emod_of_nonneg (by omega)]
  omega

theorem half_ws (h : ℕ) : (ws h).tdiv 2 = 2 * h := by
  rw [ws_eq, Int.tdiv_eq_ediv_of_nonneg (by omega)]
  omega

theorem nFrames_eq (h nsamples : ℕ) : ((nsamples : ℤ).tdiv h - 2).toNat = nsamples / h - 2 := by
  rw [Int.tdiv_eq_ediv_of_nonneg (Int.natCast_nonneg _), ← Int.natCast_ediv]
  omega

/-- The last sample of the window of a frame is in the signal. -/
theorem window_fits (hh : 1 ≤ h) (hi : i < nsamples / h - 2) : (i + 2) * h < nsamples := by
  have hmul : (i + 3) * h ≤ nsamples := (Nat.mul_le_mul_right h (by omega)).trans (Nat.div_mul_le_self nsamples h)
  have hsplit : (i + 3) * h = (i + 2) * h + h := Nat.succ_mul (i + 2) h
  omega

omit [Doubles D] in
/-- No access is outside, and the branch for windows that end after the signal is not taken. -/
theorem windowEnergy_eq (hh : 1 ≤ h) (hw : w.length = 4 * h + 1) (buffer : ℕ → F) (hi : i < nsamples / h - 2)
    (nFrames : ℤ) : windowEnergy h w buffer nsamples nFrames i = some (frameEnergy h w buffer i) := by
  have hfits := window_fits hh hi
  have hround : ∀ k : ℕ, (i - 2) * h ≤ k → k < (i + 2) * h + 1 → ∀ en : F,
      (do let x ← get nsamples buffer k
          let y ← read w ((k : ℤ) - ((h : ℤ) * i - 2 * h))
          return en + x * x * y : Option F) =
        some (en + buffer k * buffer k * w.getD (k + 2 * h - i * h) (Floats.lit 0)) := by
    intro k hk hk' en
    have hexpand : (i + 2) * h = i * h + 2 * h := Nat.add_mul i 2 h
    have hsub : (i - 2) * h = i * h - 2 * h := Nat.sub_mul i 2 h
    have hidx : (k : ℤ) - ((h : ℤ) * i - 2 * h) = (k + 2 * h - i * h : ℕ) := by
      rw [mul_comm (h : ℤ) i]
      have hcast : ((i * h : ℕ) : ℤ) = (i : ℤ) * h := Nat.cast_mul i h
      omega
    have hlt : k + 2 * h - i * h < w.length := by omega
    rw [get_cast (by omega), Option.bind_eq_bind, Option.bind_some, hidx, read_cast hlt, Option.bind_some,
      List.getD_eq_getElem _ _ hlt]
    rfl
  unfold windowEnergy frameEnergy
  simp only [half_ws]
  have hend : ((h : ℤ) * i + 2 * h + 1).toNat = (i + 2) * h + 1 := by
    have hcast : (((i + 2) * h : ℕ) : ℤ) = (h : ℤ) * i + 2 * h := by
      push_cast
      ring
    omega
  have hbegin : ((h : ℤ) * i - 2 * h).toNat = (i - 2) * h := by
    have hcast : ((i * h : ℕ) : ℤ) = (h : ℤ) * i := by
      push_cast
      ring
    have hsub : (i - 2) * h = i * h - 2 * h := Nat.sub_mul i 2 h
    omega
  have hbefore : ¬(h : ℤ) * i + 2 * h ≥ nsamples := by
    have hcast : (((i + 2) * h : ℕ) : ℤ) = (h : ℤ) * i + 2 * h := by
      push_cast
      ring
    omega
  rw [hend, hbegin, if_neg hbefore]
  by_cases hb : (h : ℤ) * i - 2 * h < 1
  · have hzero : (i - 2) * h = 0 := by omega
    rw [if_pos hb, hzero]
    exact forUpM_rule (fun _ _ => True) trivial fun k en _ hk _ => ⟨hround k (by omega) hk en, trivial⟩
  · rw [if_neg hb]
    exact forUpM_rule (fun _ _ => True) trivial fun k en hk hk' _ => ⟨hround k hk hk' en, trivial⟩

omit [Doubles D] in
/-- As many frames as fit, and their timestamps. -/
theorem energyFrames_eq (hh : 1 ≤ h) (hw : w.length = 4 * h + 1) (area : F) (buffer : ℕ → F) (nsamples : ℕ)
    (frameTime : F) : energyFrames h w area buffer nsamples frameTime =
      some ((List.range (nsamples / h - 2)).map (fun i : ℕ => ofInt i * frameTime),
        (List.range (nsamples / h - 2)).map fun i => frameEnergy h w buffer i / area) := by
  have hne : ¬(h : ℤ) = 0 := by omega
  unfold energyFrames
  rw [if_neg hne]
  simp only [nFrames_eq]
  obtain ⟨st, hloop, hst⟩ := forUpM_total (g := fun i (st : List F × List F) => do
      let en ← windowEnergy h w buffer nsamples ((nsamples : ℤ).tdiv h - 2) i
      return (st.1 ++ [ofInt i * frameTime], st.2 ++ [en / area])) (s := ([], []))
    (fun n st => st = ((List.range n).map (fun i : ℕ => ofInt i * frameTime),
      (List.range n).map fun i => frameEnergy h w buffer i / area))
    (Nat.zero_le (nsamples / h - 2)) rfl fun i st _ hi hst => by
      rw [windowEnergy_eq hh hw buffer hi, hst]
      refine ⟨_, rfl, ?_⟩
      rw [List.range_succ, List.map_append, List.map_append]
      rfl
  rw [← hst]
  exact hloop

end Window

/-! ## The windows of the code -/

section Hanning

variable [Mixing F D]

theorem hanning_length (n : ℕ) : (hanning n : List F × F).1.length = n := by
  refine forUp_rule (P := fun i (st : List F × F) => st.1.length = i) (Nat.zero_le n) rfl fun i st _ _ hst => ?_
  rw [List.length_append, hst]
  rfl

theorem computeEnergy_eq {samplerate frameTime : F} {h : ℕ} (hh : 1 ≤ h) (hhop : hop samplerate frameTime = h)
    (buffer : ℕ → F) (nsamples : ℕ) : computeEnergy buffer nsamples samplerate frameTime =
      some ((List.range (nsamples / h - 2)).map (fun i : ℕ => ofInt i * frameTime),
        (List.range (nsamples / h - 2)).map fun i =>
          frameEnergy h (hanning (4 * h + 1) : List F × F).1 buffer i / (hanning (4 * h + 1) : List F × F).2) := by
  have hsize : (ws h + 1).toNat = 4 * h + 1 := by
    rw [ws_eq]
    omega
  unfold computeEnergy
  simp only [hhop, hsize]
  exact energyFrames_eq hh (hanning_length _) _ buffer nsamples frameTime

end Hanning

/-! ## In exact arithmetic -/

section Exact

theorem frameEnergy_sum {h : ℕ} (w : List ℝ) (buffer : ℕ → ℝ) (i : ℕ) :
    frameEnergy h w buffer i =
      ∑ k ∈ Finset.Icc ((i - 2) * h) ((i + 2) * h), buffer k ^ 2 * w.getD (k + 2 * h - i * h) 0 := by
  have hle : (i - 2) * h ≤ (i + 2) * h + 1 := (Nat.mul_le_mul_right h (by omega)).trans (Nat.le_succ _)
  have hlit : (Floats.lit 0 : ℝ) = 0 := Rat.cast_zero
  have hsum := forUp_add hle (fun k => buffer k * buffer k * w.getD (k + 2 * h - i * h) 0) 0
  unfold frameEnergy
  rw [hlit, hsum, zero_add]
  apply Finset.sum_congr rfl
  intro k _
  rw [sq]

/-- The weights of `hanning` and their sum. -/
theorem hanning_sum (n : ℕ) : (hanning n : List ℝ × ℝ).2 = (hanning n : List ℝ × ℝ).1.sum := by
  refine forUp_rule (P := fun _ (st : List ℝ × ℝ) => st.2 = st.1.sum) (Nat.zero_le n) Rat.cast_zero
    fun i st _ _ hst => ?_
  rw [List.sum_append, ← hst, List.sum_singleton]

/-- There are `nsamples / h - 2` frames, or none; each has the energy of its window, the weights of which begin two hops
before it; and no window ends after the signal. -/
theorem energyFrames_windowed {h : ℕ} (hh : 1 ≤ h) {w : List ℝ} (hw : w.length = 4 * h + 1)
    (buffer : ℕ → ℝ) (nsamples : ℕ) (frameTime : ℝ) :
    ∃ timestamps energy, energyFrames h w w.sum buffer nsamples frameTime = some (timestamps, energy) ∧
      timestamps.length = nsamples / h - 2 ∧ energy.length = nsamples / h - 2 ∧
      (∀ i : ℕ, i < nsamples / h - 2 → timestamps[i]? = some (i * frameTime) ∧
        energy[i]? = some ((∑ k ∈ Finset.Icc ((i - 2) * h) ((i + 2) * h),
          buffer k ^ 2 * w.getD (k + 2 * h - i * h) 0) / w.sum) ∧
        ¬(h * i + (ws h).tdiv 2 : ℤ) ≥ nsamples) := by
  refine ⟨_, _, energyFrames_eq hh hw w.sum buffer nsamples frameTime, ?_, ?_, fun i hi => ⟨?_, ?_, ?_⟩⟩
  · rw [List.length_map, List.length_range]
  · rw [List.length_map, List.length_range]
  · rw [List.getElem?_map, List.getElem?_range hi, Option.map_some, ofInt_eq, Int.cast_natCast]
  · rw [List.getElem?_map, List.getElem?_range hi, Option.map_some, frameEnergy_sum]
  · have hfits := window_fits hh hi
    have hcast : (((i + 2) * h : ℕ) : ℤ) = (h : ℤ) * i + 2 * h := by
      push_cast
      ring
    rw [half_ws]
    omega

/-- Five samples that rise by one, with a hop of one and half a second between the frames. -/
theorem energyFrames_windowed_rise :
    energyFrames (1 : ℕ) [1, 2, 3, 2, 1] ([1, 2, 3, 2, 1] : List ℝ).sum (fun k => k) 5 (1 / 2) =
      some ([0, 1 / 2, 1], [6 / 9, 20 / 9, 48 / 9]) := by
  obtain ⟨timestamps, energy, h, htimestamps, henergy, hframes⟩ :=
    energyFrames_windowed le_rfl (w := [1, 2, 3, 2, 1]) rfl (fun k => (k : ℝ)) 5 (1 / 2)
  obtain ⟨t0, t1, t2, rfl⟩ := List.length_eq_three.1 htimestamps
  obtain ⟨e0, e1, e2, rfl⟩ := List.length_eq_three.1 henergy
  obtain ⟨ht0, he0, -⟩ := hframes 0 (by decide)
  obtain ⟨ht1, he1, -⟩ := hframes 1 (by decide)
  obtain ⟨ht2, he2, -⟩ := hframes 2 (by decide)
  have hsum : ([1, 2, 3, 2, 1] : List ℝ).sum = 9 := by norm_num
  have h0 : Finset.Icc ((0 - 2) * 1) ((0 + 2) * 1) = {0, 1, 2} := by decide
  have h1 : Finset.Icc ((1 - 2) * 1) ((1 + 2) * 1) = {0, 1, 2, 3} := by decide
  have h2 : Finset.Icc ((2 - 2) * 1) ((2 + 2) * 1) = {0, 1, 2, 3, 4} := by decide
  rw [h0, hsum] at he0
  rw [h1, hsum] at he1
  rw [h2, hsum] at he2
  obtain rfl : t0 = 0 := (Option.some.inj ht0).trans (by norm_num)
  obtain rfl : t1 = 1 / 2 := (Option.some.inj ht1).trans (by norm_num)
  obtain rfl : t2 = 1 := (Option.some.inj ht2).trans (by norm_num)
  obtain rfl : e0 = 6 / 9 := (Option.some.inj he0).trans (by norm_num [Finset.sum_insert])
  obtain rfl : e1 = 20 / 9 := (Option.some.inj he1).trans (by norm_num [Finset.sum_insert])
  obtain rfl : e2 = 48 / 9 := (Option.some.inj he2).trans (by norm_num [Finset.sum_insert])
  exact h

end Exact

end Mixer

end Undertone
