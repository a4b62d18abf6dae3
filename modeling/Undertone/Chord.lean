import Undertone.Steady

/-!
# A chord

A sound with the rankings of `Steady`: two pulses in every 2048 samples, a fixed distance apart. Every frame holds both,
wherever the window puts its weight, and the energy of its spectrum is a cosine of the distance over a constant
(`pulses_energy`), so the ranking of the tones can be read off the residues of the bins (`chord_sounds`). Two distances
are used: with one of them every block makes a token, with the other the second block makes none.
-/

namespace Undertone

open CountedLoop Globals

/-! ## The energy spectrum -/

theorem realDFT_even (n : ℕ) (a : ℕ → ℝ) {m : ℕ} (hm : 2 * m < n) :
    realDFT n a (2 * m) = ∑ j ∈ Finset.range n, a j * Real.cos (2 * Real.pi * j * m / n) := by
  have hhalf : 2 * m / 2 = m := by omega
  rw [realDFT, if_neg (by omega), if_neg (by omega), if_pos (by omega), hhalf]

theorem realDFT_odd (n : ℕ) (a : ℕ → ℝ) {m : ℕ} (h1 : 1 ≤ m) (hm : 2 * m + 1 < n) :
    realDFT n a (2 * m + 1) = ∑ j ∈ Finset.range n, a j * Real.sin (2 * Real.pi * j * m / n) := by
  have hhalf : (2 * m + 1) / 2 = m := by omega
  rw [realDFT, if_neg (by omega), if_neg (by omega), if_neg (by omega), hhalf]

/-- The loop that negates the imaginary parts. -/
theorem negate_spec (a : ℕ → ℝ) {N m : ℕ} (h1 : 1 ≤ m) (hm : m < N) :
    forUp 1 N (fun i a => Function.update a (i * 2 + 1) (-(a (i * 2 + 1)))) a (2 * m) = a (2 * m) ∧
      forUp 1 N (fun i a => Function.update a (i * 2 + 1) (-(a (i * 2 + 1)))) a (2 * m + 1) = -a (2 * m + 1) := by
  have hloop := forUp_rule (a := 1) (b := N) (s := a)
    (f := fun i b => Function.update b (i * 2 + 1) (-(b (i * 2 + 1))))
    (P := fun i b => b (2 * m) = a (2 * m) ∧ b (2 * m + 1) = if m < i then -a (2 * m + 1) else a (2 * m + 1))
    (by omega) ⟨rfl, by rw [if_neg (by omega)]⟩ ?_
  · rwa [if_pos hm] at hloop
  · rintro i b - - ⟨heven, hodd⟩
    refine ⟨by rw [Function.update_of_ne (by omega), heven], ?_⟩
    by_cases him : i = m
    · subst him
      rw [if_neg (lt_irrefl i)] at hodd
      rw [if_pos (by omega), Nat.mul_comm, Function.update_self, hodd]
    · rw [Function.update_of_ne (by omega), hodd]
      by_cases hlt : m < i
      · rw [if_pos hlt, if_pos (by omega)]
      · rw [if_neg hlt, if_neg (by omega)]

/-- The energy of a bin. -/
theorem doFFT_energy (S : SpectralAnalysis ℝ) (frame : ℕ → ℝ) (hmode : S.mode = .kEnergySpectrum)
    (hsize : S.mFftSize = 2048) {m : ℕ} (h1 : 1 ≤ m) (hm : m < 1024) :
    (S.doFFT frame).mSpecMag m =
      (∑ j ∈ Finset.range 2048, frame j * S.mWindow j * Real.cos (2 * Real.pi * j * m / (2048 : ℕ))) ^ 2 +
        (∑ j ∈ Finset.range 2048, frame j * S.mWindow j * Real.sin (2 * Real.pi * j * m / (2048 : ℕ))) ^ 2 := by
  have hinput : ∀ j ∈ Finset.range 2048,
      forUp 0 2049 (fun i a => Function.update a i (frame i * S.mWindow i)) S.inputBuffer j = frame j * S.mWindow j :=
    fun j hj => by
      have hj := Finset.mem_range.1 hj
      rw [forUp_fill]
      exact if_pos ⟨Nat.zero_le j, by omega⟩
  have hreal : S.transform frame (2 * m) =
      ∑ j ∈ Finset.range 2048, frame j * S.mWindow j * Real.cos (2 * Real.pi * j * m / (2048 : ℕ)) := by
    simp only [SpectralAnalysis.transform, hsize]
    refine (negate_spec _ h1 hm).1.trans ?_
    refine (realDFT_even 2048 _ (by omega)).trans (Finset.sum_congr rfl fun j hj => ?_)
    rw [hinput j hj]
  have himag : S.transform frame (2 * m + 1) =
      -∑ j ∈ Finset.range 2048, frame j * S.mWindow j * Real.sin (2 * Real.pi * j * m / (2048 : ℕ)) := by
    simp only [SpectralAnalysis.transform, hsize]
    refine (negate_spec _ h1 hm).2.trans (congrArg Neg.neg ?_)
    refine (realDFT_odd 2048 _ h1 (by omega)).trans (Finset.sum_congr rfl fun j hj => ?_)
    rw [hinput j hj]
  simp only [SpectralAnalysis.doFFT, hmode, hsize]
  rw [Function.update_of_ne (by omega), Function.update_of_ne (by omega), forUp_fill]
  refine (if_pos ⟨h1, hm⟩).trans ?_
  rw [hreal, himag]
  ring

/-! ## Pulses -/

/-- A pulse at every position `r` modulo 2048. -/
noncomputable def pulse (r n : ℕ) : ℝ := if n % 2048 = r then 1 else 0

/-- Two pulses, `d` samples apart. -/
noncomputable def chord (d n : ℕ) : ℝ := pulse 1 n + pulse (1 + d) n

/-- Where the pulse lies in the frame at `c`. -/
def pulsePos (r c : ℕ) : ℕ := (r + 2048 - c % 2048) % 2048

theorem sum_pulse {r : ℕ} (hr : r < 2048) (c : ℕ) (f : ℕ → ℝ) :
    ∑ j ∈ Finset.range 2048, pulse r (c + j) * f j = f (pulsePos r c) := by
  have hpos : pulsePos r c < 2048 := Nat.mod_lt _ (by decide)
  rw [Finset.sum_eq_single (pulsePos r c)]
  · rw [pulse, if_pos (by unfold pulsePos; omega), one_mul]
  · intro j hj hne
    have hj := Finset.mem_range.1 hj
    rw [pulse, if_neg (by unfold pulsePos at hne; omega), zero_mul]
  · exact fun h => absurd (Finset.mem_range.2 hpos) h

/-- The energy of two rotating pulses depends on the angle between them. -/
theorem pulses_energy (u v x y : ℝ) :
    (u * Real.cos x + v * Real.cos y) ^ 2 + (u * Real.sin x + v * Real.sin y) ^ 2 =
      u ^ 2 + v ^ 2 + 2 * u * v * Real.cos (y - x) := by
  rw [Real.cos_sub]
  linear_combination u ^ 2 * Real.cos_sq_add_sin_sq x + v ^ 2 * Real.cos_sq_add_sin_sq y

section Angle

local instance atLeastTwo_two : Nat.AtLeastTwo 2 := ⟨le_refl 2⟩

/-- The angle of the distance `n`, as a part of 2048. -/
noncomputable def turn (n : ℕ) : ℝ := 2 * Real.pi * n / (2048 : ℕ)

end Angle

theorem cos_pulsePos {d : ℕ} (hd : 1 + d < 2048) (c m : ℕ) :
    Real.cos (2 * Real.pi * (pulsePos (1 + d) c : ℕ) * m / (2048 : ℕ) -
      2 * Real.pi * (pulsePos 1 c : ℕ) * m / (2048 : ℕ)) = Real.cos (turn (d * m)) := by
  obtain ⟨e, he⟩ : ∃ e, pulsePos 1 c + d = pulsePos (1 + d) c + 2048 * e := by
    unfold pulsePos
    by_cases h : (1 + 2048 - c % 2048) % 2048 + d < 2048
    · exact ⟨0, by omega⟩
    · exact ⟨1, by omega⟩
  have he' : (pulsePos (1 + d) c : ℝ) = pulsePos 1 c + d - 2048 * e := by
    have : (pulsePos 1 c : ℝ) + d = pulsePos (1 + d) c + 2048 * e := by exact_mod_cast he
    linarith
  have hangle : 2 * Real.pi * (pulsePos (1 + d) c : ℕ) * m / (2048 : ℕ) -
      2 * Real.pi * (pulsePos 1 c : ℕ) * m / (2048 : ℕ) = turn (d * m) - (e * m : ℕ) * (2 * Real.pi) := by
    rw [he', turn]
    push_cast
    ring
  rw [hangle, Real.cos_sub_nat_mul_two_pi]

/-- The energy of a bin in a frame with two pulses. -/
theorem pulses_frame_energy {S : SpectralAnalysis ℝ} (hmode : S.mode = .kEnergySpectrum) (hsize : S.mFftSize = 2048)
    {r r' : ℕ} (hr : r < 2048) (hr' : r' < 2048) (c : ℕ) {frame : ℕ → ℝ}
    (hframe : ∀ j < 2048, frame j = pulse r (c + j) + pulse r' (c + j)) {m : ℕ} (h1 : 1 ≤ m) (hm : m < 1024) :
    (S.doFFT frame).mSpecMag m =
      S.mWindow (pulsePos r c) ^ 2 + S.mWindow (pulsePos r' c) ^ 2 +
        2 * S.mWindow (pulsePos r c) * S.mWindow (pulsePos r' c) *
          Real.cos (2 * Real.pi * (pulsePos r' c : ℕ) * m / (2048 : ℕ) -
            2 * Real.pi * (pulsePos r c : ℕ) * m / (2048 : ℕ)) := by
  have hsum : ∀ f : ℕ → ℝ, ∑ j ∈ Finset.range 2048, frame j * S.mWindow j * f j =
      S.mWindow (pulsePos r c) * f (pulsePos r c) + S.mWindow (pulsePos r' c) * f (pulsePos r' c) := fun f => by
    rw [← sum_pulse hr c fun j => S.mWindow j * f j, ← sum_pulse hr' c fun j => S.mWindow j * f j,
      ← Finset.sum_add_distrib]
    refine Finset.sum_congr rfl fun j hj => ?_
    rw [hframe j (Finset.mem_range.1 hj)]
    ring
  rw [doFFT_energy S _ hmode hsize h1 hm, hsum, hsum, pulses_energy]

/-- The energy of a bin in a frame of the chord. -/
theorem chord_energy {S : SpectralAnalysis ℝ} (hmode : S.mode = .kEnergySpectrum) (hsize : S.mFftSize = 2048) {d : ℕ}
    (hd : 1 + d < 2048) (tail : ℕ → ℝ) (k : ℕ) {m : ℕ} (h1 : 1 ≤ m) (hm : m < 1024) :
    (S.doFFT (FrameBuffer.window 2048 256 tail (chord d) k)).mSpecMag m =
      S.mWindow (pulsePos 1 (k * 256)) ^ 2 + S.mWindow (pulsePos (1 + d) (k * 256)) ^ 2 +
        2 * S.mWindow (pulsePos 1 (k * 256)) * S.mWindow (pulsePos (1 + d) (k * 256)) * Real.cos (turn (d * m)) := by
  rw [pulses_frame_energy hmode hsize (by decide : 1 < 2048) hd (k * 256) (fun j hj => ?_) h1 hm, cos_pulsePos hd]
  rw [FrameBuffer.window, if_pos hj, chord]

/-! ## The ranking of the tones -/

/-- The angle up to sign and full turns, as a part of 2048. -/
def fold (n : ℕ) : ℕ := min (n % 2048) (2048 - n % 2048)

theorem fold_le (n : ℕ) : fold n ≤ 1024 := by
  unfold fold
  omega

theorem cos_turn_fold (n : ℕ) : Real.cos (turn n) = Real.cos (turn (fold n)) := by
  have hmod : Real.cos (turn n) = Real.cos (turn (n % 2048)) := by
    have hn : (n : ℝ) = (n % 2048 : ℕ) + 2048 * (n / 2048 : ℕ) := by exact_mod_cast (Nat.mod_add_div n 2048).symm
    have hangle : turn n = turn (n % 2048) + (n / 2048 : ℕ) * (2 * Real.pi) := by
      rw [turn, turn, hn]
      push_cast
      ring
    rw [hangle, Real.cos_add_nat_mul_two_pi]
  have hr := Nat.mod_lt n (show 0 < 2048 by decide)
  rw [hmod, fold]
  generalize n % 2048 = r at hr
  rcases Nat.le_total r (2048 - r) with hle | hle
  · rw [min_eq_left hle]
  · have hangle : turn (2048 - r) = 2 * Real.pi - turn r := by
      rw [turn, turn, Nat.cast_sub hr.le]
      push_cast
      ring
    rw [min_eq_right hle, hangle, Real.cos_two_pi_sub]

theorem turn_range {n : ℕ} (h : n ≤ 1024) : turn n ∈ Set.Icc 0 Real.pi := by
  have hn : (n : ℝ) ≤ 1024 := by exact_mod_cast h
  have hpi := Real.pi_pos
  unfold turn
  constructor
  · positivity
  · push_cast
    rw [div_le_iff₀ (by norm_num)]
    nlinarith

theorem turn_lt {n m : ℕ} : turn n < turn m ↔ n < m := by
  have hpi := Real.pi_pos
  unfold turn
  rw [div_lt_div_iff_of_pos_right (by norm_num), mul_lt_mul_iff_right₀ (by positivity), Nat.cast_lt]

theorem cos_turn_lt {n m : ℕ} : Real.cos (turn n) < Real.cos (turn m) ↔ fold m < fold n := by
  rw [cos_turn_fold n, cos_turn_fold m,
    Real.strictAntiOn_cos.lt_iff_gt (turn_range (fold_le n)) (turn_range (fold_le m)), turn_lt]

/-- The angle of a half turn has the least cosine. -/
theorem neg_one_lt_cos_turn {n : ℕ} (h : fold n ≠ 1024) : -1 < Real.cos (turn n) := by
  have hhalf : Real.cos (turn 1024) = -1 := by
    have : turn 1024 = Real.pi := by
      unfold turn
      push_cast
      ring
    rw [this, Real.cos_pi]
  rw [← hhalf, cos_turn_lt]
  exact lt_of_le_of_ne (fold_le n) h

/-- The ranking of the tones that two pulses `d` samples apart make. -/
def chordRank (d p i : ℕ) : ℕ := 1024 - fold (d * audibleBin p i)

section Cosine

variable {d : ℕ} {mag : ℕ → ℝ} {u v : ℝ}

/-- A spectrum that is a constant and a multiple of the cosine of the distance has no zeros. -/
theorem cosine_pos (hodd : d % 2 = 1) (hu : 0 < u) (hv : 0 < v)
    (hmag : ∀ m, 1 ≤ m → m < 1024 → mag m = u ^ 2 + v ^ 2 + 2 * u * v * Real.cos (turn (d * m))) {m : ℕ} (h1 : 1 ≤ m)
    (hm : m < 1024) : 0 < mag m := by
  have hhalf : fold (d * m) ≠ 1024 := fun h => by
    have hdvd : 2 ^ 10 ∣ d * m := by
      unfold fold at h
      omega
    have hcop : Nat.Coprime (2 ^ 10) d := (Nat.coprime_two_left.2 (Nat.odd_iff.2 hodd)).pow_left 10
    have hle := Nat.le_of_dvd h1 (hcop.dvd_of_dvd_mul_left hdvd)
    omega
  have hcos := neg_one_lt_cos_turn hhalf
  rw [hmag m h1 hm]
  nlinarith [mul_pos hu hv, sq_nonneg (u - v)]

/-- Such a spectrum ranks the bins by the distance of their angles from a half turn. -/
theorem cosine_around_lt (hd : d < 512) (hu : 0 < u) (hv : 0 < v)
    (hmag : ∀ m, 1 ≤ m → m < 1024 → mag m = u ^ 2 + v ^ 2 + 2 * u * v * Real.cos (turn (d * m))) {b b' : ℕ}
    (hb : 2 ≤ b) (hb1 : b + 1 < 1024) (hb' : 2 ≤ b') (hb1' : b' + 1 < 1024) :
    around mag b < around mag b' ↔ 1024 - fold (d * b) < 1024 - fold (d * b') := by
  have hcos : 0 < 1 + 2 * Real.cos (turn d) := by
    have hquarter : Real.cos (turn 512) = 0 := by
      have : turn 512 = Real.pi / 2 := by
        unfold turn
        push_cast
        ring
      rw [this, Real.cos_pi_div_two]
    have hlt : Real.cos (turn 512) < Real.cos (turn d) := cos_turn_lt.2 (by unfold fold; omega)
    linarith
  have haround : ∀ b, 2 ≤ b → b + 1 < 1024 → around mag b = 3 * (u ^ 2 + v ^ 2) +
      2 * u * v * (1 + 2 * Real.cos (turn d)) * Real.cos (turn (d * b)) := fun b hb hb1 => by
    obtain ⟨b, rfl⟩ : ∃ c, b = c + 1 := ⟨b - 1, by omega⟩
    unfold around
    rw [Nat.add_sub_cancel, hmag b (by omega) (by omega), hmag (b + 1) (by omega) (by omega),
      hmag (b + 1 + 1) (by omega) hb1]
    have hbefore : turn (d * b) = turn (d * (b + 1)) - turn d := by
      unfold turn
      push_cast
      ring
    have hafter : turn (d * (b + 1 + 1)) = turn (d * (b + 1)) + turn d := by
      unfold turn
      push_cast
      ring
    rw [hbefore, hafter, Real.cos_sub, Real.cos_add]
    ring
  have hpos : 0 < 2 * u * v * (1 + 2 * Real.cos (turn d)) := by positivity
  rw [haround b hb hb1, haround b' hb' hb1', add_lt_add_iff_left, mul_lt_mul_iff_right₀ hpos, cos_turn_lt]
  have h1 := fold_le (d * b)
  have h2 := fold_le (d * b')
  omega

theorem chord_ranked (hd : d < 512) (hodd : d % 2 = 1) (hu : 0 < u) (hv : 0 < v)
    (hmag : ∀ m, 1 ≤ m → m < 1024 → mag m = u ^ 2 + v ^ 2 + 2 * u * v * Real.cos (turn (d * m))) :
    Ranked (chordRank d) mag where
  pos _ h1 hm := cosine_pos hodd hu hv hmag h1 hm
  order p hp i hi j hj := by
    unfold chordRank
    refine cosine_around_lt hd hu hv hmag ?_ ?_ ?_ ?_
    all_goals
      unfold audibleBin
      omega

end Cosine

/-- Every frame of the chord has the ranking: neither pulse falls on the first sample, where the window is zero. -/
theorem chord_sounds {d : ℕ} (hd : d < 512) (hodd : d % 2 = 1) (hhop : (1 + d) % 256 ≠ 0) (tail : ℕ → ℝ) (k : ℕ) :
    Sounds (chordRank d) (FrameBuffer.window 2048 256 tail (chord d) k) := by
  intro S hmode hsize hwindow
  have hpos : ∀ r, r % 256 ≠ 0 → 0 < S.mWindow (pulsePos r (k * 256)) := fun r hr =>
    hwindow _ (by unfold pulsePos; omega) (Nat.mod_lt _ (by decide))
  exact chord_ranked hd hodd (hpos 1 (by decide)) (hpos (1 + d) hhop)
    fun m h1 hm => chord_energy hmode hsize (by omega) tail k h1 hm

/-! ## The two distances -/

instance (rank : ℕ → ℕ → ℕ) : Decidable (Starts rank) := inferInstanceAs (Decidable (_ ∧ _))

/-- With 267 samples between the pulses every block makes a token. -/
theorem chord_tokens : Starts (chordRank 267) ∧ ∀ p < 3, Core.Tokens (chordRank 267) p := by
  decide +kernel

/-- The audible decoder finds the start tokens with the 35th frame of the chord. -/
theorem chord_found : ∃ (A B : Analysis ℝ) (frame : ℕ → ℝ),
    A.AnalyzeStartTokens 1 frame = (1, Analysis.beginMessage 0 B) ∧ B.mSizeBlockCircularBuffer = 36 := by
  have hsound := chord_sounds (d := 267) (by decide) (by decide) (by decide) fun _ => 0
  have hsearch : ∀ n ≤ 34, ∃ A, Searching (chordRank 267) 0 n A := by
    intro n
    induction n with
    | zero => exact fun _ => ⟨_, (Decoder.audible_waiting (chordRank 267)).searching⟩
    | succ n ih =>
      intro hn
      obtain ⟨A, hA⟩ := ih (by omega)
      obtain ⟨B, hB, -⟩ := hA.step chord_tokens.1 (by omega) (hsound n)
      exact ⟨B, hB⟩
  obtain ⟨A, hA⟩ := hsearch 34 le_rfl
  obtain ⟨B, hB, hfound⟩ := hA.step chord_tokens.1 (by decide) (hsound 34)
  exact ⟨A, B, _, hfound, hB.settings.size⟩

/-- With 27 samples between the pulses the second block votes for the tones 6 and 8, which make no token. -/
theorem chord_no_token : Starts (chordRank 27) ∧ Core.Tokens (chordRank 27) 1 ∧ ¬ Core.Tokens (chordRank 27) 2 := by
  decide +kernel

end Undertone
