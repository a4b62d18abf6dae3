import Undertone.Interface
import Undertone.Streaming

/-!
# How loud a transmission is

The tones of a symbol stay below 0.7 in both kinds of encoders, and so does a melody that is mixed in; a signature is
clipped. Only the robotic sounds are added on top, at the volume that `OXY_SetSynthVolume` set last. A caller never
gets a sample outside `[-B, B]`, whatever the calls on whatever objects, as long as the robotic sounds stay within it
(`samples_within`).
-/

namespace Undertone

open CountedLoop BoundedArray Globals

theorem double_lit_eq (q : ℚ) : (Doubles.lit q : ℝ) = q := rfl

theorem lit_one : (Floats.lit 1 : ℝ) = 1 := by
  rw [lit_eq, Rat.cast_one]

/-- The gain of a level in decibels. -/
theorem gain_nonneg (x : ℝ) : (0 : ℝ) ≤ Floats.pow (Floats.lit 10) x := by
  have h10 : (0 : ℝ) ≤ Floats.lit 10 := by
    rw [lit_eq]
    norm_num
  exact Real.rpow_nonneg h10 x

namespace AudioEncoder

/-! ## Factors -/

section Factors

/-- A fade of `n` samples, at one of them. -/
theorem ramp_range {a : ℝ} (ha : 0 ≤ a) {k n : ℤ} (h0 : 0 ≤ k) (hk : k ≤ n) :
    0 ≤ a * (ofInt k : ℝ) / ofInt n ∧ a * (ofInt k : ℝ) / ofInt n ≤ a := by
  have hk0 : (0 : ℝ) ≤ k := by exact_mod_cast h0
  have hkn : (k : ℝ) ≤ n := by exact_mod_cast hk
  rw [ofInt_eq, ofInt_eq]
  refine ⟨div_nonneg (mul_nonneg ha hk0) (hk0.trans hkn), ?_⟩
  refine div_le_of_le_mul₀ (hk0.trans hkn) ha ?_
  exact mul_le_mul_of_nonneg_left hkn ha

theorem tokenAmplitude_eq : (tokenAmplitude : ℝ) = 0.7 := by
  rw [tokenAmplitude, lit_eq]
  norm_num

theorem factor_range (i : ℕ) : 0 ≤ (factor i : ℝ) ∧ (factor i : ℝ) ≤ 0.7 := by
  have hfactor : (factor i : ℝ) = if i = 0 then 0.7 - 0.05 + 0.05 else if i = 1 then 0.7 - 0.05 + 0.025
      else 0.7 - 0.05 := by
    show (if i = 0 then (tokenAmplitude : ℝ) - Doubles.lit 0.05 + Doubles.lit 0.05
      else if i = 1 then (tokenAmplitude : ℝ) - Doubles.lit 0.05 + Doubles.lit 0.025
      else (tokenAmplitude : ℝ) - Doubles.lit 0.05) = _
    rw [tokenAmplitude_eq]
    simp only [double_lit_eq]
    norm_num
  rw [hfactor]
  split
  · norm_num
  · split <;> norm_num

/-- The loudness of a tone is between 0.85 and 1, and is 1 in the audible mode. -/
theorem getLoudnessFromIdx_range (c : EncoderClass) (idx : ℤ) :
    (0 ≤ (getLoudnessFromIdx c idx : ℝ × ℝ).1 ∧ (getLoudnessFromIdx c idx : ℝ × ℝ).1 ≤ 1) ∧
      0 ≤ (getLoudnessFromIdx c idx : ℝ × ℝ).2 ∧ (getLoudnessFromIdx c idx : ℝ × ℝ).2 ≤ 1 := by
  obtain ⟨⟨h0, h9⟩, h0', h9'⟩ := getIdxsFromIdx_range idx
  have hlinear : ∀ n : ℤ, 0 ≤ n → n < 9 →
      0 ≤ (Floats.lit 0.85 + Floats.lit 0.15 * ofInt n / ofInt (numTonesAll - 1) : ℝ) ∧
        (Floats.lit 0.85 + Floats.lit 0.15 * ofInt n / ofInt (numTonesAll - 1) : ℝ) ≤ 1 := by
    intro n hn hn'
    have h8 : n ≤ (numTonesAll : ℤ) - 1 := by
      rw [numTonesAll]
      omega
    obtain ⟨hlow, hhigh⟩ := ramp_range (a := Floats.lit 0.15) (by rw [lit_eq]; norm_num) hn h8
    have h85 : (Floats.lit 0.85 : ℝ) = 0.85 := by
      rw [lit_eq]
      norm_num
    have h15 : (Floats.lit 0.15 : ℝ) = 0.15 := by
      rw [lit_eq]
      norm_num
    rw [h15] at hlow hhigh
    rw [h85, h15]
    constructor <;> linarith
  cases c with
  | AudibleMultiTone =>
    simp only [getLoudnessFromIdx, lit_one]
    norm_num
  | NonAudibleMultiTone => exact ⟨hlinear _ h0 h9, hlinear _ h0' h9'⟩
  | CompressionMultiTone => exact ⟨hlinear _ h0 h9, hlinear _ h0' h9'⟩
  | CustomMultiTone => exact ⟨hlinear _ h0 h9, hlinear _ h0' h9'⟩

theorem fade_range {n t : ℕ} (ht : t < n) (samplesForFade : ℤ) :
    0 ≤ (fade n samplesForFade t : ℝ) ∧ (fade n samplesForFade t : ℝ) ≤ 0.7 := by
  have h7 : (0 : ℝ) ≤ 0.7 := by norm_num
  unfold fade
  rw [tokenAmplitude_eq]
  split
  · rename_i hbegin
    exact ramp_range h7 (Int.natCast_nonneg t) (le_of_lt hbegin)
  · split
    · rename_i hend
      exact ramp_range h7 (by omega) (by omega)
    · exact ⟨h7, le_rfl⟩

end Factors

/-! ## Samples -/

section Samples

/-- A sine at an amplitude. -/
theorem abs_mul_sin_le {a b : ℝ} (h0 : 0 ≤ a) (h : a ≤ b) (x : ℝ) : |a * Real.sin x| ≤ b := by
  rw [abs_mul, abs_of_nonneg h0]
  calc a * |Real.sin x| ≤ a * 1 := mul_le_mul_of_nonneg_left (Real.abs_sin_le_one x) h0
    _ ≤ b := by rw [mul_one]; exact h

/-- One tone at full and two at half the amplitude. -/
theorem tones_le (i : ℕ) {loudness : ℝ × ℝ} (h1 : 0 ≤ loudness.1 ∧ loudness.1 ≤ 1)
    (h2 : 0 ≤ loudness.2 ∧ loudness.2 ≤ 1) {f : ℝ} (hf : 0 ≤ f ∧ f ≤ 0.7) (phase1 phase2 : ℝ) :
    |tones i loudness f phase1 phase2| ≤ 0.7 := by
  have hpart : ∀ {c l : ℝ}, 0 ≤ c → 0 ≤ l ∧ l ≤ 1 → 0 ≤ c * l * f ∧ c * l * f ≤ c * 0.7 := by
    rintro c l hc ⟨hl, hl'⟩
    refine ⟨mul_nonneg (mul_nonneg hc hl) hf.1, ?_⟩
    rw [mul_assoc]
    refine mul_le_mul_of_nonneg_left ?_ hc
    calc l * f ≤ 1 * f := mul_le_mul_of_nonneg_right hl' hf.1
      _ ≤ 0.7 := by rw [one_mul]; exact hf.2
  have hhalf : (Floats.lit 0.5 : ℝ) = 0.5 := by
    rw [lit_eq]
    norm_num
  unfold tones
  by_cases hi : i < 2
  · rw [if_pos hi, lit_one]
    obtain ⟨h0, hle⟩ := hpart zero_le_one h1
    exact abs_mul_sin_le h0 (hle.trans (by norm_num)) phase1
  · rw [if_neg hi, hhalf]
    obtain ⟨h0, hle⟩ := hpart (c := 0.5) (by norm_num) h1
    obtain ⟨h0', hle'⟩ := hpart (c := 0.5) (by norm_num) h2
    have hsum := abs_add_le (0.5 * loudness.1 * f * Real.sin phase1) (0.5 * loudness.2 * f * Real.sin phase2)
    have hfirst := abs_mul_sin_le h0 hle phase1
    have hsecond := abs_mul_sin_le h0' hle' phase2
    exact hsum.trans (by linarith)

theorem sample_le (e : AudioEncoder ℝ) (i t : ℕ) (idx : ℤ) (phase1 phase2 : ℝ) :
    |sample e i t (getLoudnessFromIdx e.cls idx) phase1 phase2| ≤ 0.7 := by
  obtain ⟨h1, h2⟩ := getLoudnessFromIdx_range e.cls idx
  obtain ⟨h0, h7⟩ := factor_range i
  have hramp : ∀ {k n : ℤ}, 0 ≤ k → k ≤ n →
      0 ≤ (factor i * ofInt k / ofInt n : ℝ) ∧ (factor i * ofInt k / ofInt n : ℝ) ≤ 0.7 := by
    intro k n hk hkn
    obtain ⟨hlow, hhigh⟩ := ramp_range h0 hk hkn
    exact ⟨hlow, hhigh.trans h7⟩
  unfold sample
  simp only
  split
  · rename_i hbegin
    exact tones_le i h1 h2 (hramp (Int.natCast_nonneg t) (le_of_lt hbegin)) phase1 phase2
  · split
    · rename_i hend
      exact tones_le i h1 h2 (hramp (by omega) (by omega)) phase1 phase2
    · split
      · rw [lit_eq, Rat.cast_zero, abs_zero]
        norm_num
      · exact tones_le i h1 h2 ⟨h0, h7⟩ phase1 phase2

/-- The gain of the robotic sounds. -/
noncomputable def synthGain (synthVolume : ℝ) : ℝ := Floats.pow (Floats.lit 10) (synthVolume / Floats.lit 20)

theorem roboticSound_le (e : AudioEncoder ℝ) (synthVolume : ℝ) (randNote randSweep : ℤ) {t : ℕ}
    (ht : t < e.samplesPerDigit) {x : ℝ} (hx : |x| ≤ 0.7) :
    |roboticSound e synthVolume randNote randSweep t x| ≤ 0.7 * (1 + synthGain synthVolume) := by
  obtain ⟨h0, h7⟩ := fade_range ht e.samplesForFade
  have hgain : (Floats.pow (Floats.lit 10) (synthVolume / Floats.lit 20) : ℝ) = synthGain synthVolume := rfl
  have hpos : 0 ≤ synthGain synthVolume := gain_nonneg _
  have hsound := abs_mul_sin_le (mul_nonneg hpos h0) (mul_le_mul_of_nonneg_left h7 hpos)
  unfold roboticSound
  simp only
  rw [hgain, lit_one, one_mul]
  calc _ ≤ |x| + _ := abs_add_le _ _
    _ ≤ 0.7 + synthGain synthVolume * 0.7 := add_le_add hx (hsound _)
    _ = 0.7 * (1 + synthGain synthVolume) := by ring

theorem melodyNote_le (e : AudioEncoder ℝ) (digit : ℤ) {t : ℕ} (ht : t < e.samplesPerDigit) {x : ℝ} (hx : |x| ≤ 0.7) :
    |melodyNote e digit t x| ≤ 0.7 := by
  obtain ⟨h0, h7⟩ := fade_range ht e.samplesForFade
  have h75 : (Floats.lit 0.75 : ℝ) = 0.75 := by
    rw [lit_eq]
    norm_num
  have h25 : (Floats.lit 0.25 : ℝ) = 0.25 := by
    rw [lit_eq]
    norm_num
  have hsound := abs_mul_sin_le (a := 0.25 * (fade e.samplesPerDigit e.samplesForFade t : ℝ)) (b := 0.25 * 0.7)
    (mul_nonneg (by norm_num) h0) (mul_le_mul_of_nonneg_left h7 (by norm_num))
  unfold melodyNote
  rw [h75, h25]
  have hthere : |0.75 * x| ≤ 0.75 * 0.7 := by
    rw [abs_mul, abs_of_nonneg (by norm_num : (0 : ℝ) ≤ 0.75)]
    exact mul_le_mul_of_nonneg_left hx (by norm_num)
  calc _ ≤ |0.75 * x| + _ := abs_add_le _ _
    _ ≤ 0.75 * 0.7 + 0.25 * 0.7 := add_le_add hthere (hsound _)
    _ = 0.7 := by norm_num

theorem clip_le (x : ℝ) : |clip x| ≤ 1 := by
  have hneg : (Floats.lit (-1) : ℝ) = -1 := by
    rw [lit_eq]
    norm_num
  have hlt : ∀ a b : ℝ, Floats.lt a b = true ↔ a < b := fun a b => decide_eq_true_iff
  have hmin : ∀ y : ℝ, y ≤ 1 → |if Floats.lt (Floats.lit (-1)) y then y else Floats.lit (-1)| ≤ 1 := by
    intro y hy
    rw [hneg]
    split
    · rename_i hlow
      exact abs_le.2 ⟨((hlt _ _).1 hlow).le, hy⟩
    · norm_num
  unfold clip
  refine hmin _ ?_
  rw [lit_one]
  split
  · rename_i hhigh
    exact ((hlt _ _).1 hhigh).le
  · exact le_rfl

end Samples

/-! ## Filling the buffer -/

/-- No sample of the first `n` is outside `[-B, B]`. -/
def Within (B : ℝ) (n : ℕ) (audio : ℕ → ℝ) : Prop := ∀ k < n, |audio k| ≤ B

section Filling

variable {e : AudioEncoder ℝ} {B : ℝ} {n : ℕ} {audio audio' : ℕ → ℝ}

theorem Within.mono {C : ℝ} (h : Within B n audio) (hBC : B ≤ C) : Within C n audio := fun k hk =>
  (h k hk).trans hBC

theorem Within.put {i : ℕ} {x : ℝ} (h : Within B n audio) (hx : |x| ≤ B) (hput : put n audio i x = some audio') :
    Within B n audio' := by
  rw [put_cast (put_inv hput)] at hput
  obtain rfl := Option.some.inj hput
  intro k hk
  by_cases hki : k = i
  · rw [hki, Function.update_self]
    exact hx
  · rw [Function.update_of_ne hki]
    exact h k hk

theorem writeDigit_within {g : Globals ℝ} {digit : ℤ} {i : ℕ} {st st' : Filling ℝ ℝ}
    (h : Within 0.7 e.mNumMaxSamplesEncodedString st.audio) (hwrite : writeDigit g e digit i st = some st') :
    Within 0.7 e.mNumMaxSamplesEncodedString st'.audio := by
  obtain ⟨⟨phase1, phase2, audio⟩, hloop, hdone⟩ := Option.bind_eq_some_iff.1 hwrite
  obtain rfl := Option.some.inj hdone
  refine forUpM_inv (fun _ st => Within 0.7 e.mNumMaxSamplesEncodedString st.2.2) (Nat.zero_le _) h ?_ hloop
  rintro t ⟨phase1, phase2, audio⟩ s' - - hwithin hround
  obtain ⟨audio', hput, hdone⟩ := Option.bind_eq_some_iff.1 hround
  obtain rfl := Option.some.inj hdone
  exact hwithin.put (sample_le e i t digit _ _) hput

theorem writeDigits_within {g : Globals ℝ} {digits : List ℤ} {st : Filling ℝ ℝ}
    (h : Within 0.7 e.mNumMaxSamplesEncodedString audio) (hwrite : writeDigits g e digits audio = some st) :
    Within 0.7 e.mNumMaxSamplesEncodedString st.audio := by
  refine forUpM_inv (fun _ (st : Filling ℝ ℝ) => Within 0.7 e.mNumMaxSamplesEncodedString st.audio) (Nat.zero_le _) h
    ?_ hwrite
  intro i st st' _ _ hwithin hround
  obtain ⟨digit, -, hdigit⟩ := Option.bind_eq_some_iff.1 hround
  exact writeDigit_within hwithin hdigit

/-- A sound is mixed into the samples of its symbol, each once. -/
theorem mixDigit_apply {mix : ℕ → ℝ → ℝ} {i : ℕ} (h : mixDigit e mix i audio = some audio') (k : ℕ) :
    audio' k = if i * e.samplesPerDigit ≤ k ∧ k < (i + 1) * e.samplesPerDigit then
      mix (k - i * e.samplesPerDigit) (audio k) else audio k := by
  have hloop := forUpM_inv (fun t (a : ℕ → ℝ) => ∀ k, a k =
      if i * e.samplesPerDigit ≤ k ∧ k < t + i * e.samplesPerDigit then mix (k - i * e.samplesPerDigit) (audio k)
      else audio k) (Nat.zero_le _) (fun k => by rw [if_neg (by omega)]) (fun t a a' _ _ ha hround k => by
      obtain ⟨x, -, hput⟩ := Option.bind_eq_some_iff.1 hround
      rw [get_put_cast (put_inv hput)] at hround
      obtain rfl := Option.some.inj hround
      by_cases hk : k = t + i * e.samplesPerDigit
      · have hfresh := ha k
        rw [if_neg (by omega)] at hfresh
        rw [← hk, Function.update_self, hfresh, if_pos (by omega), hk, Nat.add_sub_cancel]
      · rw [Function.update_of_ne hk, ha k]
        exact if_congr (and_congr_right fun _ => by omega) rfl rfl) h k
  rw [hloop, Nat.succ_mul, Nat.add_comm]

/-- A sound that keeps within the bound on what is within it. -/
theorem mixDigit_within {mix : ℕ → ℝ → ℝ} {i : ℕ} (h : Within B n audio)
    (hmix : ∀ t < e.samplesPerDigit, ∀ x, |x| ≤ B → |mix t x| ≤ B) (hm : mixDigit e mix i audio = some audio') :
    Within B n audio' := by
  intro k hk
  rw [mixDigit_apply hm]
  split
  · rename_i hin
    refine hmix _ ?_ _ (h k hk)
    rw [Nat.succ_mul] at hin
    omega
  · exact h k hk

/-- What the sounds of a type add on top of the symbols. -/
def SoundsWithin (B : ℝ) (type : ℤ) (synthVolume : ℝ) : Prop := type = 1 → 0.7 * (1 + synthGain synthVolume) ≤ B

/-- The robotic sounds of different symbols do not overlap; a melody stays as loud as the symbols. -/
theorem addSounds_within {w : Surroundings ℝ} {type : ℤ} {melodyString : List Char} {digits : List ℤ}
    {st st' : Filling ℝ ℝ} (hB : 0.7 ≤ B) (hsounds : SoundsWithin B type w.synthVolume) (h : Within 0.7 n st.audio)
    (hadd : addSounds w type melodyString digits e st = some st') : Within B n st'.audio := by
  unfold addSounds at hadd
  split at hadd
  · rename_i htype
    obtain ⟨audio, hloop, hdone⟩ := Option.bind_eq_some_iff.1 hadd
    obtain rfl := Option.some.inj hdone
    -- the samples of the symbols that are still to come are those of the symbols alone
    have hinv := forUpM_inv (fun i (a : ℕ → ℝ) => (∀ k < n, |a k| ≤ B) ∧
        ∀ k < n, i * e.samplesPerDigit ≤ k → |a k| ≤ 0.7) (Nat.zero_le _)
      ⟨fun k hk => (h k hk).trans hB, fun k hk _ => h k hk⟩ (fun i a a' _ _ ha hround => by
        refine ⟨fun k hk => ?_, fun k hk hlate => ?_⟩
        · rw [mixDigit_apply hround]
          split
          · rename_i hin
            refine (roboticSound_le e _ _ _ ?_ (ha.2 k hk hin.1)).trans (hsounds htype)
            rw [Nat.succ_mul] at hin
            omega
          · exact ha.1 k hk
        · rw [mixDigit_apply hround, if_neg (by omega)]
          rw [Nat.succ_mul] at hlate
          exact ha.2 k hk (by omega)) hloop
    exact hinv.1
  · split at hadd
    · obtain ⟨audio, hloop, hdone⟩ := Option.bind_eq_some_iff.1 hadd
      obtain rfl := Option.some.inj hdone
      have hinv : Within 0.7 n audio := by
        refine forUpM_inv (fun _ a => Within 0.7 n a) (Nat.zero_le _) h (fun i a a' _ _ ha hround => ?_) hloop
        obtain ⟨digit, -, hmix⟩ := Option.bind_eq_some_iff.1 hround
        exact mixDigit_within ha (fun t ht x hx => melodyNote_le e digit ht hx) hmix
      exact hinv.mono hB
    · obtain rfl := Option.some.inj hadd
      exact h.mono hB

end Filling

end AudioEncoder

/-! ## One encoding -/

open AudioEncoder hiding Call call

section Encodings

variable {B : ℝ} {w : Surroundings ℝ} {stringToEncode melodyString : List Char} {type : ℤ}

/-- The mixed samples are clipped. -/
theorem SignedEncoder.addSignature_within {s : SignedEncoder ℝ} {st st' : Filling ℝ ℝ} (hB : 1 ≤ B)
    (h : Within B s.encoder.mNumMaxSamplesEncodedString st.audio) (hadd : s.addSignature st = some st') :
    Within B s.encoder.mNumMaxSamplesEncodedString st'.audio := by
  unfold SignedEncoder.addSignature at hadd
  simp only at hadd
  by_cases hset : s.mnAudioSignatureSamples > 0 ∧ (SignedEncoder.testsPointer s.encoder.cls → s.mAudioSignature.isSome)
  · rw [if_pos hset] at hadd
    obtain ⟨audio, hloop, hdone⟩ := Option.bind_eq_some_iff.1 hadd
    obtain rfl := Option.some.inj hdone
    refine forUpM_inv (fun _ audio => Within B s.encoder.mNumMaxSamplesEncodedString audio) (Nat.zero_le _) h
      (fun i audio audio' _ _ hwithin hround => ?_) hloop
    obtain ⟨x, -, hround⟩ := Option.bind_eq_some_iff.1 hround
    obtain ⟨samples, -, hround⟩ := Option.bind_eq_some_iff.1 hround
    obtain ⟨y, -, hput⟩ := Option.bind_eq_some_iff.1 hround
    exact hwithin.put ((clip_le _).trans hB) hput
  · rw [if_neg hset] at hadd
    obtain rfl := Option.some.inj hadd
    exact h

/-- The buffer before the symbols. -/
theorem clear_within (e : AudioEncoder ℝ) : Within 0.7 e.mNumMaxSamplesEncodedString
    (fun i => if i < e.mNumMaxSamplesEncodedString then Floats.lit 0 else e.mAudioBufferEncodedString i) := by
  intro k hk
  simp only
  rw [if_pos hk, lit_eq, Rat.cast_zero, abs_zero]
  norm_num

theorem SignedEncoder.encode_within {s s' : SignedEncoder ℝ} {n : ℕ} (hB : 1 ≤ B)
    (hsounds : SoundsWithin B type w.synthVolume)
    (h : s.EncodeDataToAudioBuffer w stringToEncode type melodyString = some (n, s')) :
    Within B s'.encoder.mNumMaxSamplesEncodedString s'.encoder.mAudioBufferEncodedString := by
  obtain ⟨⟨digits, codec⟩, -, hrest⟩ := Option.bind_eq_some_iff.1 h
  obtain ⟨st, hdigits, hrest⟩ := Option.bind_eq_some_iff.1 hrest
  obtain ⟨st', hadd, hrest⟩ := Option.bind_eq_some_iff.1 hrest
  obtain ⟨st'', hsignature, hdone⟩ := Option.bind_eq_some_iff.1 hrest
  obtain ⟨-, rfl⟩ := Prod.mk.inj (Option.some.inj hdone)
  have hsymbols := writeDigits_within (clear_within s.encoder) hdigits
  have hmixed := addSounds_within (by linarith) hsounds hsymbols hadd
  exact SignedEncoder.addSignature_within hB hmixed hsignature

namespace OldMode

/-- The symbols of a transmission are symbols. -/
theorem transmit_sym {e : AudioEncoder ℝ} {digits : List ℤ} {codec : ReedSolomon.Codec}
    (h : transmit stringToEncode e = some (digits, codec)) : ∀ digit ∈ digits, ReedSolomon.Sym digit := by
  obtain ⟨sum, -, hsend⟩ := Option.bind_eq_some_iff.1 h
  exact ReedSolomon.Codec.sendChecked_sym hsend

/-- A symbol is never louder than the highest one. -/
theorem getLoudnessFromIdx_range {idx : ℤ} (h : idx < 32) :
    0 ≤ (getLoudnessFromIdx idx : ℝ) ∧ (getLoudnessFromIdx idx : ℝ) ≤ 1 := by
  have h10 : (Floats.lit 10 : ℝ) = 10 := by
    rw [lit_eq]
    norm_num
  have hexponent :
      (Floats.lit (-6) * (Floats.lit 1 - ofInt idx / ofInt (numTokensAll - 1)) / Floats.lit 20 : ℝ) ≤ 0 := by
    have hidx : (idx : ℝ) ≤ 31 := by exact_mod_cast Int.lt_add_one_iff.1 h
    rw [lit_one, ofInt_eq, ofInt_eq, lit_eq, lit_eq]
    norm_num [numTokensAll]
    linarith
  unfold getLoudnessFromIdx
  rw [h10]
  exact ⟨Real.rpow_nonneg (by norm_num) _, Real.rpow_le_one_of_one_le_of_nonpos (by norm_num) hexponent⟩

theorem factor_range (e : AudioEncoder ℝ) (i t : ℕ) : 0 ≤ (factor e i t : ℝ) ∧ (factor e i t : ℝ) ≤ 0.7 := by
  have h7 : (0 : ℝ) ≤ 0.7 := by norm_num
  unfold factor
  simp only [tokenAmplitude_eq]
  split
  · rename_i hbegin
    exact ramp_range h7 (Int.natCast_nonneg t) (le_of_lt hbegin)
  · split
    · rename_i hend
      exact ramp_range h7 (by omega) (by omega)
    · split
      · rw [lit_eq, Rat.cast_zero]
        exact ⟨le_rfl, h7⟩
      · exact ⟨h7, le_rfl⟩

theorem sample_le (mode : OldMode) (e : AudioEncoder ℝ) {digit : ℤ} (h : digit < 32) (i t : ℕ) :
    |(sample mode e digit i t : ℝ)| ≤ 0.7 := by
  obtain ⟨hl0, hl1⟩ := getLoudnessFromIdx_range h
  obtain ⟨hf0, hf7⟩ := factor_range e i t
  refine abs_mul_sin_le (mul_nonneg hl0 hf0) ?_ _
  calc (getLoudnessFromIdx digit : ℝ) * factor e i t ≤ 1 * factor e i t := mul_le_mul_of_nonneg_right hl1 hf0
    _ ≤ 0.7 := by rw [one_mul]; exact hf7

theorem encode_within {mode : OldMode} {e e' : AudioEncoder ℝ} {n : ℕ} (hB : 1 ≤ B)
    (hsounds : SoundsWithin B type w.synthVolume)
    (h : mode.EncodeDataToAudioBuffer w stringToEncode type melodyString e = some (n, e')) :
    Within B e'.mNumMaxSamplesEncodedString e'.mAudioBufferEncodedString := by
  obtain ⟨⟨digits, codec⟩, htransmit, hrest⟩ := Option.bind_eq_some_iff.1 h
  obtain ⟨st, hdigits, hrest⟩ := Option.bind_eq_some_iff.1 hrest
  obtain ⟨st', hadd, hdone⟩ := Option.bind_eq_some_iff.1 hrest
  obtain ⟨-, rfl⟩ := Prod.mk.inj (Option.some.inj hdone)
  have hsymbols : Within 0.7 e.mNumMaxSamplesEncodedString st.audio := by
    refine forUpM_inv (fun _ (st : Filling ℝ ℝ) => Within 0.7 e.mNumMaxSamplesEncodedString st.audio) (Nat.zero_le _)
      (clear_within e) (fun i st st' _ _ hwithin hround => ?_) hdigits
    obtain ⟨digit, hdigit, hwrite⟩ := Option.bind_eq_some_iff.1 hround
    obtain ⟨audio, hloop, hdone⟩ := Option.bind_eq_some_iff.1 hwrite
    obtain rfl := Option.some.inj hdone
    have hsym := transmit_sym htransmit digit (List.mem_of_getElem? hdigit)
    exact forUpM_inv (fun _ audio => Within 0.7 e.mNumMaxSamplesEncodedString audio) (Nat.zero_le _) hwithin
      (fun t audio audio' _ _ ha hput => ha.put (sample_le mode e hsym.2 i t) hput) hloop
  exact addSounds_within (by linarith) hsounds hsymbols hadd

end OldMode

end Encodings

section Unsigned

variable {F D : Type} [Doubles D] [Floats F D] [Synthesis F D]

omit [Synthesis F D] in
/-- Without a signature nothing is mixed in. -/
theorem addSignature_empty {e : AudioEncoder F} (h : e.mAudioSignature = []) (st : Filling F D) :
    addSignature e st = some st := by
  unfold addSignature
  rw [h]
  rfl

/-- Without a signature the members for it make no difference. -/
theorem SignedEncoder.encode_unsigned (w : Surroundings F) (stringToEncode : List Char) (type : ℤ)
    (melodyString : List Char) {s : SignedEncoder F} (hnone : s.mnAudioSignatureSamples = 0)
    (hempty : s.encoder.mAudioSignature = []) : s.EncodeDataToAudioBuffer w stringToEncode type melodyString =
      (s.encoder.EncodeDataToAudioBuffer w stringToEncode type melodyString).map
        fun (n, encoder) => (n, { s with encoder := encoder }) := by
  have hsignature : ∀ st : Filling F D, s.addSignature st = some st := by
    intro st
    unfold SignedEncoder.addSignature
    simp only
    rw [if_neg (fun h => by omega)]
  unfold SignedEncoder.EncodeDataToAudioBuffer AudioEncoder.EncodeDataToAudioBuffer
  simp only [hsignature, addSignature_empty hempty, Option.bind_eq_bind, Option.bind_some]
  cases transmit stringToEncode s.encoder with
  | none => rfl
  | some p =>
    simp only [Option.bind_some]
    cases writeDigits w.globals s.encoder p.1 _ with
    | none => rfl
    | some st =>
      simp only [Option.bind_some]
      cases addSounds w type melodyString p.1 s.encoder st with
      | none => rfl
      | some st' => rfl

end Unsigned

/-! ## Calls -/

namespace AnyEncoder

@[simp] theorem setMembers_members {F : Type} (members : SignedEncoder F) (e : AnyEncoder F) :
    (e.setMembers members).members = members := by
  cases e <;> rfl

@[simp] theorem setEncoder_encoder {F : Type} (encoder : AudioEncoder F) (e : AnyEncoder F) :
    (e.setEncoder encoder).members.encoder = encoder := by
  cases e <;> rfl

end AnyEncoder

namespace COxyCore

section Transmissions

variable {F D : Type} [Doubles D] [Floats F D] [CFFTOoura F] [Synthesis F D] {o : COxyCore F} {w : Shared F}
  {m : SignedEncoder F}

/-- An encoding without a signature, through the interface. -/
theorem encode_call (ho : o.mEncoder = some (.multi m)) (hnone : m.mnAudioSignatureSamples = 0)
    (hempty : m.encoder.mAudioSignature = []) {stringToEncode melodyString : List Char} {type : ℤ} {rand : ℕ → ℤ}
    {n : ℕ} {encoder : AudioEncoder F} (h : m.encoder.EncodeDataToAudioBuffer ⟨w.globals, w.synthVolume, rand⟩
      stringToEncode type melodyString = some (n, encoder)) :
    call (.EncodeDataToAudioBuffer stringToEncode type melodyString rand) o w =
      some (.ret n, { o with mEncoder := some (.multi { m with encoder := encoder }) }, w) := by
  have huse : use (.EncodeDataToAudioBuffer stringToEncode type melodyString rand) w o =
      some (.ret n, { o with mEncoder := some (.multi { m with encoder := encoder }) }) := by
    show o.onEncoder _ = _
    unfold onEncoder AnyEncoder.EncodeDataToAudioBuffer
    rw [ho]
    simp only [Option.bind_eq_bind, Option.bind_some]
    rw [SignedEncoder.encode_unsigned _ _ _ _ hnone hempty, h]
    rfl
  rw [call_use rfl, huse]
  rfl

/-- A read, through the interface. -/
theorem get_call (ho : o.mEncoder = some (.multi m)) {samples : List F} {encoder : AudioEncoder F}
    (h : m.encoder.GetEncodedAudioBuffer = some (samples, encoder)) :
    call .GetEncodedAudioBuffer o w = some (.samples samples.length samples,
      { o with mEncoder := some (.multi { m with encoder := encoder }) }, w) := by
  have huse : use .GetEncodedAudioBuffer w o = some (.samples samples.length samples,
      { o with mEncoder := some (.multi { m with encoder := encoder }) }) := by
    show o.onEncoder _ = _
    unfold onEncoder
    rw [ho]
    show (m.encoder.GetEncodedAudioBuffer.bind _).bind _ = _
    rw [h]
    rfl
  rw [call_use rfl, huse]
  rfl

end Transmissions

section Calls

variable {B : ℝ} {e e' : AnyEncoder ℝ} {o o' : COxyCore ℝ} {w w' : Shared ℝ} {r : Answer ℝ}

/-- The audio that an encoder holds is within the bound. -/
def Quiet (B : ℝ) (e : AudioEncoder ℝ) : Prop :=
  Within B (min e.mNumSamplesEncodedString e.mNumMaxSamplesEncodedString) e.mAudioBufferEncodedString

/-- So is that of the encoder of an object, if there is one. -/
def QuietObject (B : ℝ) (o : COxyCore ℝ) : Prop := ∀ e ∈ o.mEncoder, Quiet B e.members.encoder

theorem quiet_of_within {e : AudioEncoder ℝ} (h : Within B e.mNumMaxSamplesEncodedString e.mAudioBufferEncodedString) :
    Quiet B e := fun k hk => h k (hk.trans_le (min_le_right _ _))

/-- A sample that is read has been encoded. -/
theorem readSamples_le {e : AudioEncoder ℝ} (h : Quiet B e) :
    ∀ (n index : ℕ) (samples : List ℝ), readSamples e n index = some samples → ∀ x ∈ samples, |x| ≤ B
  | 0, _, samples, hread, x, hx => by
    obtain rfl := Option.some.inj hread
    exact absurd hx (List.not_mem_nil)
  | n + 1, index, samples, hread, x, hx => by
    rw [readSamples] at hread
    split at hread
    · obtain rfl := Option.some.inj hread
      exact absurd hx (List.not_mem_nil)
    · rename_i hnotend
      obtain ⟨y, hy, hread⟩ := Option.bind_eq_some_iff.1 hread
      obtain ⟨rest, hrest, hdone⟩ := Option.bind_eq_some_iff.1 hread
      obtain rfl := Option.some.inj hdone
      have hin : index < e.mNumMaxSamplesEncodedString := by
        have := (get_inv hy).2
        omega
      rcases List.mem_cons.1 hx with rfl | hx
      · rw [get_cast hin] at hy
        obtain rfl := Option.some.inj hy
        exact h index (lt_min (not_le.1 hnotend) hin)
      · exact readSamples_le h n (index + 1) rest hrest x hx

/-- An encoding of either kind. -/
theorem encode_quiet {w : Surroundings ℝ} {stringToEncode melodyString : List Char} {type : ℤ} {n : ℕ} (hB : 1 ≤ B)
    (hsounds : SoundsWithin B type w.synthVolume)
    (h : e.EncodeDataToAudioBuffer w stringToEncode type melodyString = some (n, e')) :
    Quiet B e'.members.encoder := by
  cases e with
  | old mode members =>
    obtain ⟨⟨n', encoder⟩, hencode, hdone⟩ := Option.bind_eq_some_iff.1 h
    obtain ⟨-, rfl⟩ := Prod.mk.inj (Option.some.inj hdone)
    exact quiet_of_within (OldMode.encode_within hB hsounds hencode)
  | multi members =>
    obtain ⟨⟨n', members'⟩, hencode, hdone⟩ := Option.bind_eq_some_iff.1 h
    obtain ⟨-, rfl⟩ := Prod.mk.inj (Option.some.inj hdone)
    exact quiet_of_within (SignedEncoder.encode_within hB hsounds hencode)

/-- A new encoder has nothing encoded. -/
theorem newEncoder_quiet (mem : Memory ℝ) (mode : OldMode ⊕ OxyMode) (o : COxyCore ℝ) :
    Quiet B (newEncoder mem mode o).members.encoder := by
  intro k hk
  cases mode <;> exact absurd (hk.trans_le (min_le_left _ _)) (Nat.not_lt_zero k)

theorem build_quiet (mem : Memory ℝ) (mode : OldMode ⊕ OxyMode) (o : COxyCore ℝ) (g : Globals ℝ) :
    QuietObject B (build mem mode o g).1 := by
  intro e he
  obtain rfl := Option.some.inj he
  exact newEncoder_quiet mem mode o

theorem configure_quiet (mem : Memory ℝ) (mode : ℤ) (samplingRate : ℝ) (bufferSize : ℤ) (o : COxyCore ℝ)
    (g : Globals ℝ) : QuietObject B (o.Configure mem mode samplingRate bufferSize g).2.1 := by
  unfold COxyCore.Configure
  cases modeOf mode with
  | none => exact fun e he => absurd he (by simp)
  | some mode => exact build_quiet mem mode _ g

theorem setCustomBaseFreq_quiet (h : QuietObject B o) (mem : Memory ℝ) (baseFreq : ℝ) (oxysSeparation : ℤ)
    (g : Globals ℝ) : QuietObject B (o.SetCustomBaseFreq mem baseFreq oxysSeparation g).1 := by
  unfold COxyCore.SetCustomBaseFreq
  simp only
  split
  · exact build_quiet mem _ o _
  · exact h

theorem setAudioSignature_encoder {s s' : SignedEncoder ℝ} {samplesSize : ℤ} {samplesBuffer : Option (ℕ → ℝ)}
    (h : s.SetAudioSignature samplesSize samplesBuffer = some s') : s'.encoder = s.encoder := by
  rcases SignedEncoder.setAudioSignature_cases h with ⟨-, rfl⟩ | ⟨buffer, -, -, -, rfl⟩ | ⟨buffer, -, -, rfl⟩
  · rfl
  · rfl
  · split <;> rfl

/-- The sounds of an encoding stay within the bound, at the volume of the moment. -/
def LoudWithin (B : ℝ) (c : Call ℝ) (w : Shared ℝ) : Prop :=
  ∀ stringToEncode type melodyString rand, c = .EncodeDataToAudioBuffer stringToEncode type melodyString rand →
    SoundsWithin B type w.synthVolume

/-- The samples that a call hands out of the encoded audio. -/
def handedOut (c : Call ℝ) (r : Answer ℝ) : List ℝ :=
  match c, r with
  | .GetEncodedAudioBuffer, .samples _ samples => samples
  | _, _ => []

theorem use_quiet {c : Call ℝ} (hB : 1 ≤ B) (hloud : LoudWithin B c w) (ho : QuietObject B o)
    (hc : use c w o = some (r, o')) : QuietObject B o' ∧ ∀ x ∈ handedOut c r, |x| ≤ B := by
  cases c with
  | SetAudioSignature samplesSize samplesBuffer =>
    refine ⟨?_, fun x hx => absurd hx List.not_mem_nil⟩
    obtain ⟨e, e', he, hf, rfl⟩ := onEncoder_inv hc
    obtain ⟨members, hmembers, hdone⟩ := Option.bind_eq_some_iff.1 hf
    obtain ⟨-, rfl⟩ := Prod.mk.inj (Option.some.inj hdone)
    intro e1 he1
    obtain rfl := Option.some.inj he1
    rw [AnyEncoder.setMembers_members, setAudioSignature_encoder hmembers]
    exact ho e he
  | EncodeDataToAudioBuffer stringToEncode type melodyString rand =>
    refine ⟨?_, fun x hx => absurd hx List.not_mem_nil⟩
    obtain ⟨e, e', he, hf, rfl⟩ := onEncoder_inv hc
    obtain ⟨⟨n, e1⟩, hencode, hdone⟩ := Option.bind_eq_some_iff.1 hf
    obtain ⟨-, rfl⟩ := Prod.mk.inj (Option.some.inj hdone)
    intro e2 he2
    obtain rfl := Option.some.inj he2
    exact encode_quiet hB (hloud stringToEncode type melodyString rand rfl) hencode
  | GetEncodedAudioBuffer =>
    obtain ⟨e, e', he, hf, rfl⟩ := onEncoder_inv hc
    obtain ⟨⟨samples, encoder⟩, hread, hdone⟩ := Option.bind_eq_some_iff.1 hf
    obtain ⟨rfl, rfl⟩ := Prod.mk.inj (Option.some.inj hdone)
    obtain ⟨samples', hsamples, hdone'⟩ := Option.bind_eq_some_iff.1 hread
    obtain ⟨rfl, rfl⟩ := Prod.mk.inj (Option.some.inj hdone')
    refine ⟨?_, fun x hx => readSamples_le (ho e he) _ _ _ hsamples x hx⟩
    intro e2 he2
    obtain rfl := Option.some.inj he2
    rw [AnyEncoder.setEncoder_encoder]
    exact ho e he
  | ResetEncodedAudioBuffer =>
    refine ⟨?_, fun x hx => absurd hx List.not_mem_nil⟩
    obtain ⟨e, e', he, hf, rfl⟩ := onEncoder_inv hc
    obtain ⟨-, rfl⟩ := Prod.mk.inj (Option.some.inj hf)
    intro e2 he2
    obtain rfl := Option.some.inj he2
    rw [AnyEncoder.setEncoder_encoder]
    exact ho e he
  | Configure => exact absurd hc (by simp [use])
  | SetCustomBaseFreq => exact absurd hc (by simp [use])
  | SetSynthVolume => exact absurd hc (by simp [use])
  | _ =>
    refine ⟨?_, fun x hx => absurd hx List.not_mem_nil⟩
    obtain ⟨d, d', -, -, rfl⟩ := onDecoder_inv hc
    exact ho

theorem call_quiet {c : Call ℝ} (hB : 1 ≤ B) (hloud : LoudWithin B c w) (ho : QuietObject B o)
    (hc : call c o w = some (r, o', w')) : QuietObject B o' ∧ ∀ x ∈ handedOut c r, |x| ≤ B := by
  by_cases huse : c.isUse = true
  · rw [call_use huse] at hc
    obtain ⟨⟨r', o1⟩, huse', hdone⟩ := Option.map_eq_some_iff.1 hc
    simp only [Prod.mk.injEq] at hdone
    obtain ⟨rfl, rfl, -⟩ := hdone
    exact use_quiet hB hloud ho huse'
  · cases c with
    | Configure mem mode samplingRate bufferSize =>
      obtain ⟨rfl, hdone⟩ := Prod.mk.inj (Option.some.inj hc)
      obtain ⟨rfl, -⟩ := Prod.mk.inj hdone
      exact ⟨configure_quiet mem mode samplingRate bufferSize o w.globals, fun x hx => absurd hx List.not_mem_nil⟩
    | SetCustomBaseFreq mem baseFreq oxysSeparation =>
      obtain ⟨rfl, hdone⟩ := Prod.mk.inj (Option.some.inj hc)
      obtain ⟨rfl, -⟩ := Prod.mk.inj hdone
      exact ⟨setCustomBaseFreq_quiet ho mem baseFreq oxysSeparation w.globals, fun x hx => absurd hx List.not_mem_nil⟩
    | SetSynthVolume synthVolume =>
      obtain ⟨rfl, hdone⟩ := Prod.mk.inj (Option.some.inj hc)
      obtain ⟨rfl, -⟩ := Prod.mk.inj hdone
      exact ⟨ho, fun x hx => absurd hx List.not_mem_nil⟩
    | _ => exact absurd rfl huse

end Calls

end COxyCore

/-! ## Runs -/

namespace Interface

open COxyCore

variable {ι : Type} [DecidableEq ι] {mem : ι → COxyCore ℝ} {log : List ((ι × Call ℝ) × Answer ℝ)} {s : Interface ι ℝ}

/-- Over every run of the calls of the interface, on any number of objects and in any order: no sample that a caller
gets of the encoded audio is outside `[-B, B]`, where every encoding with robotic sounds was made at a volume at which
they and the tones stay within it. Encodings without them need `B = 1` only. -/
theorem samples_within {B : ℝ} (hB : 1 ≤ B) (h : Run step (initial mem) log s)
    (hloud : ∀ l i c r s', l ++ [((i, c), r)] <+: log → Run step (initial mem) l s' → LoudWithin B c s'.shared) :
    ∀ i c r, ((i, c), r) ∈ log → ∀ x ∈ handedOut c r, |x| ≤ B := by
  have hrun : (∀ i, QuietObject B (s.object i)) ∧ ∀ i c r, ((i, c), r) ∈ log → ∀ x ∈ handedOut c r, |x| ≤ B := by
    induction h with
    | nil => exact ⟨fun i e he => absurd he (by simp [initial, Create]), fun i c r hmem => absurd hmem List.not_mem_nil⟩
    | @call log s s' c r h hc ih =>
      obtain ⟨hobjects, hhanded⟩ := ih fun l i c r s' hl => hloud l i c r s' (hl.trans (List.prefix_append _ _))
      obtain ⟨i, c⟩ := c
      obtain ⟨o, hcall, hs'⟩ := step_inv hc
      obtain ⟨ho, hsamples⟩ := call_quiet hB (hloud log i c r s (List.prefix_refl _) h) (hobjects i) hcall
      constructor
      · intro j
        rw [hs']
        by_cases hj : j = i
        · rw [hj, Function.update_self]
          exact ho
        · rw [Function.update_of_ne hj]
          exact hobjects j
      · intro j c' r' hmem
        rcases List.mem_append.1 hmem with hold | hnew
        · exact hhanded j c' r' hold
        · obtain ⟨hic, rfl⟩ := Prod.mk.inj (List.mem_singleton.1 hnew)
          obtain ⟨-, rfl⟩ := Prod.mk.inj hic
          exact hsamples
  exact hrun.2

/-- A call on an object of the run. -/
theorem step_of_call {i : ι} {c : Call ℝ} {r : Answer ℝ} {o : COxyCore ℝ} {w : Shared ℝ}
    (h : call c (s.object i) s.shared = some (r, o, w)) :
    step (i, c) s = some (r, ⟨w, Function.update s.object i o⟩) :=
  congrArg (Option.map _) h

/-- A word with a melody, on an object for the audible mode. -/
theorem samples_within_melody : ∃ n samples s, Run step (initial blank) ([] ++ [(audible, .ret 0)] ++
    [(((), .EncodeDataToAudioBuffer ['h', 'e', 'l', 'l', 'o', '0', '0', '0', '0'] 2 ['a', 'c', 'e'] fun _ => 0),
      .ret n)] ++
      [(((), .GetEncodedAudioBuffer), .samples samples.length samples)]) s ∧ ∀ x ∈ samples, |x| ≤ 1 := by
  obtain ⟨s0, h0, m, hm, hnone, hempty, hrate⟩ : ∃ s0, Run step (initial blank) ([] ++ [(audible, .ret 0)]) s0 ∧
      ∃ m, (s0.object ()).mEncoder = some (.multi m) ∧ m.mnAudioSignatureSamples = 0 ∧
        m.encoder.mAudioSignature = [] ∧ m.encoder.mSampleRate = 44100 := ⟨_, .call .nil rfl, _, rfl, rfl, rfl, rfl⟩
  have hn := samplesPerDigit_44100 hrate
  have hmax := maxSamples_44100 hrate
  obtain ⟨⟨n, encoder⟩, hencode⟩ := Option.isSome_iff_exists.1 <|
    (encode_isSome_iff (e := m.encoder) ⟨s0.shared.globals, s0.shared.synthVolume, fun _ => 0⟩ (by omega) (by omega)
      ['h', 'e', 'l', 'l', 'o', '0', '0', '0', '0'] 2 ['a', 'c', 'e']).2
      ⟨⟨by decide, by decide, word_inAlphabet⟩, fun _ => by simp only [List.length_cons, List.length_nil]; omega⟩
  obtain ⟨samples, encoder', hread⟩ : ∃ samples encoder', encoder.GetEncodedAudioBuffer = some (samples, encoder') :=
    ⟨_, _, getEncodedAudioBuffer_eq (encode_fits hencode).1⟩
  have h1 := h0.call (step_of_call (encode_call hm hnone hempty hencode))
  have h2 := h1.call (step_of_call (i := ()) (get_call (m := { m with encoder := encoder }) rfl hread))
  refine ⟨n, samples, _, h2, ?_⟩
  refine samples_within le_rfl h2 ?_ () .GetEncodedAudioBuffer _ (List.mem_append_right _ (List.mem_singleton_self _))
  -- the only encoding adds a melody
  rintro l i c r s' hl - stringToEncode type melodyString rand rfl htype
  have hmem := hl.subset (List.mem_append_right l (List.mem_singleton_self _))
  subst htype
  simp [audible] at hmem

end Interface

end Undertone
