import Undertone.Chord
import Undertone.Reception.Broadcast

/-!
# A beacon

A sound with a whole message at 44100 Hz: two pulses in every 2048 samples, whose distance changes every eight frames,
so that every frame is one of a chord (`pulsePairs_frame`). The distances are those of `beacon`: the audible decoder
hears the start tokens, then `hello0123` with a symbol that sounds like another, and its caller receives the word
(`words_received_hello`).
-/

namespace Undertone

open CountedLoop Globals Analysis Core ReedSolomon Checked

/-! ## What a sound says -/

section Sound

variable {rank : ℕ → ℕ → ℕ} {A : Analysis ℝ} {g : Globals ℝ} {frame : ℕ → ℝ}

theorem Sounds.note (hs : Sounds rank frame) (hset : Settings A) :
    Analysis.note A frame = (((sorted (rank 0) 0 : ℕ) : ℤ), ((sorted (rank 0) 1 : ℕ) : ℤ)) := by
  have hranked := hs A.mSpectralAnalysis hset.mode hset.fft hset.window
  refine startTones_eq hset.bins (fun i hi => ?_) hset.beginBin hset.endBin (by decide) hranked.pos
    (hranked.order 0 (by decide))
  unfold audibleBin
  omega

/-- Two tones are ahead of the others in phase `p`. -/
def Ahead (rank : ℕ → ℕ) (a b : ℕ) : Prop := ∀ i < 9, i ≠ a → i ≠ b → rank i < rank a ∧ rank i < rank b

instance (rank : ℕ → ℕ) (a b : ℕ) : Decidable (Ahead rank a b) := inferInstanceAs (Decidable (∀ _ < 9, _))

theorem Sounds.shows (hs : Sounds rank frame) (hset : Settings A) (hg : g.nBinsOffsetForAudibleMultiTone = 12)
    {p a b : ℕ} (ha : a < 9) (hb : b < 9) (hahead : Ahead (rank (p % 3)) a b) :
    Shows g DECODING_MODE_AUDIBLE p A a b frame := by
  have hranked := hs A.mSpectralAnalysis hset.mode hset.fft hset.window
  have hphase := Nat.mod_lt p (show 0 < 3 by decide)
  have hlevel : ∀ i < 9, level g DECODING_MODE_AUDIBLE p (A.lane 0) (A.mSpectralAnalysis.doFFT frame).mSpecMag i =
      around (A.mSpectralAnalysis.doFFT frame).mSpecMag (audibleBin (p % 3) i) := by
    intro i hi
    have hoffset : Analysis.nBinsOffset g DECODING_MODE_AUDIBLE = 12 := hg
    have hbin : Analysis.evalToneBin g DECODING_MODE_AUDIBLE p (A.lane 0) i = (audibleBin (p % 3) i : ℕ) := by
      rw [Analysis.evalToneBin_phase, hset.bins i hi, hoffset]
      unfold audibleBin
      push_cast
      ring
    unfold level
    rw [hbin]
    exact sum_three _ (by unfold audibleBin; omega)
  refine ⟨?_, fun i hi => ?_, fun i hi hia hib => ?_, fun i hi hia hib => ?_⟩
  · unfold region
    rw [hset.beginBin, hset.endBin]
    refine forUp_add_pos (by decide) (fun i hi => ?_) le_rfl
    have hi : i < 281 := hi
    exact hranked.pos _ (by omega) (by omega)
  · rw [hlevel i hi]
    exact around_pos hranked hphase hi
  · rw [hlevel i hi, hlevel a ha, hranked.order _ hphase i hi a ha]
    exact (hahead i hi hia hib).1
  · rw [hlevel i hi, hlevel b hb, hranked.order _ hphase i hi b hb]
    exact (hahead i hi hia hib).2

end Sound

/-! ## Pairs of pulses -/

/-- Two pulses in every 2048 samples, at the `i`-th time `D i` samples apart. -/
noncomputable def pulsePairs (D : ℕ → ℕ) (s : ℕ) : ℝ :=
  if s % 2048 = 1793 ∨ s % 2048 = 1793 + D (s / 2048) then 1 else 0

/-- Of two conditions that exclude each other. -/
theorem ite_or_add {A B : Prop} [Decidable A] [Decidable B] (h : ¬ (A ∧ B)) :
    (if A ∨ B then 1 else 0 : ℝ) = (if A then 1 else 0) + if B then 1 else 0 := by
  by_cases hA : A
  · have hB : ¬ B := fun hB => h ⟨hA, hB⟩
    simp [hA, hB]
  · simp [hA]

/-- Eight frames hold the same two pulses, and no other. -/
theorem pulsePairs_frame {D : ℕ → ℕ} (hD : ∀ i, 0 < D i ∧ D i < 255) (tail : ℕ → ℝ) (k : ℕ) :
    FrameBuffer.window 2048 256 tail (pulsePairs D) k =
      FrameBuffer.window 2048 256 tail (chord (D (k / 8))) (k + 1) := by
  funext j
  unfold FrameBuffer.window
  by_cases hj : j < 2048
  · rw [if_pos hj, if_pos hj]
    obtain ⟨hpos, hlt⟩ := hD (k / 8)
    have hfirst : (k * 256 + j) % 2048 = 1793 ↔ ((k + 1) * 256 + j) % 2048 = 1 := by omega
    -- the samples of a frame that are in the next octet come before its pulses
    have hsecond : (k * 256 + j) % 2048 = 1793 + D ((k * 256 + j) / 2048) ↔
        ((k + 1) * 256 + j) % 2048 = 1 + D (k / 8) := by
      by_cases hoctet : (k * 256 + j) / 2048 = k / 8
      · rw [hoctet]
        omega
      · have hlater : (k * 256 + j) % 2048 < 1792 := by omega
        omega
    unfold pulsePairs chord pulse
    rw [ite_or_add (by rintro ⟨h1, h2⟩; rw [hfirst] at h1; rw [hsecond] at h2; omega)]
    simp only [hfirst, hsecond]
  · rw [if_neg hj, if_neg hj]

theorem pulsePairs_sounds {D : ℕ → ℕ} (hD : ∀ i, 0 < D i ∧ D i < 255 ∧ D i % 2 = 1) (tail : ℕ → ℝ) (k : ℕ) :
    Sounds (chordRank (D (k / 8))) (FrameBuffer.window 2048 256 tail (pulsePairs D) k) := by
  obtain ⟨hpos, hlt, hodd⟩ := hD (k / 8)
  rw [pulsePairs_frame fun i => ⟨(hD i).1, (hD i).2.1⟩]
  exact chord_sounds (by omega) hodd (by omega) tail (k + 1)

/-! ## The message -/

/-- The distances: the first start token, the second, the symbols, and a sound of no token. -/
def beacon (i : ℕ) : ℕ :=
  [1, 1, 1, 1, 1, 9, 9, 9, 79, 79, 9, 9, 7, 7, 7, 7, 1, 1, 1, 1, 1, 87, 87, 195, 195, 105, 105, 105, 37, 37, 209, 209,
    21, 21, 49, 49, 49, 111, 111, 31, 31, 15, 15, 1, 1, 1, 47, 47].getD i 1

/-- What the encoder sends for `hello0123`. -/
def hello : List ℤ := [1, 19, 17, 14, 21, 21, 24, 0, 1, 2, 3, 7, 6, 10, 5, 30, 31, 24, 0, 25]

/-- The logarithms of `hello` in the order of `recd`. -/
def helloIdx (j : ℕ) : ℤ := [19, 6, 5, 24, 15, 21, -1, 25, 0, 17, 10, 12, 22, 22, 21, -1, 0, 1, 18, 11].getD j (-1)

/-- What the decoder hears: the fifth character sounds like another. -/
def heard : Transmission := ⟨22, fun k => ((hello.drop 2).set 4 0).getD k 0⟩

theorem beacon_range (i : ℕ) : 0 < beacon i ∧ beacon i < 255 ∧ beacon i % 2 = 1 := by
  by_cases hi : i < 48
  · have htable : ∀ i < 48, 0 < beacon i ∧ beacon i < 255 ∧ beacon i % 2 = 1 := by decide
    exact htable i hi
  · unfold beacon
    rw [List.getD_eq_default _ _ (by simpa using hi)]
    decide

theorem hello_digits (e : Encoder ℝ) : ∃ e' : Encoder ℝ, e.digits "hello0123".toList = some (hello, e') := by
  have hidx : ∀ j < 31, Idx (helloIdx j) := by decide
  have hword : ∀ j < 31, received 12 hello j = ofLogs helloIdx j := by decide +kernel
  have hzero : ∀ m < 9, m ≠ 0 → tableSyndrome helloIdx m = 0 := by decide +kernel
  exact Decoder.digits_unique e rfl (by decide) (by decide +kernel) ((isCodeword_ofLogs hidx hzero).congr hword)

theorem heard_recoverable : Receiver.Recoverable heard "hello0123".toList := by
  obtain ⟨e', he⟩ := hello_digits (Encoder.new default .AudibleMultiTone 44100 2048)
  exact ⟨rfl, by simp [InAlphabet], _, e', hello, he, by decide⟩

/-! ## The reception -/

/-- The frames of the beacon. -/
noncomputable def beaconFrames (tail : ℕ → ℝ) : ℕ → ℕ → ℝ := FrameBuffer.window 2048 256 tail (pulsePairs beacon)

theorem beacon_note (tail : ℕ → ℝ) (k : ℕ) : Analysis.note Decoder.audible.core.analysis (beaconFrames tail k) =
    (((sorted (chordRank (beacon (k / 8)) 0) 0 : ℕ) : ℤ), ((sorted (chordRank (beacon (k / 8)) 0) 1 : ℕ) : ℤ)) :=
  (pulsePairs_sounds beacon_range tail k).note Decoder.audible_settings

/-- Up to the second start token, and after the message, no frame is of the second start token. -/
theorem beacon_quiet (tail : ℕ → ℝ) {k : ℕ} (hk : k < 40 ∨ 376 ≤ k) :
    ¬ Second (Analysis.note Decoder.audible.core.analysis (beaconFrames tail k)) := by
  have htable : ∀ i < 49, i < 5 ∨ 47 ≤ i → sorted (chordRank (beacon i) 0) 0 ≠ 2 ∧
      sorted (chordRank (beacon i) 0) 1 ≠ 2 := by decide +kernel
  have hone : beacon (k / 8) = beacon (min (k / 8) 48) := by
    by_cases h : k / 8 ≤ 48
    · rw [min_eq_left h]
    · unfold beacon
      rw [List.getD_eq_default _ _ (by simp; omega), List.getD_eq_default _ _ (by simp; omega)]
  obtain ⟨h1, h2⟩ := htable (min (k / 8) 48) (by omega) (by omega)
  rw [beacon_note, hone]
  rintro (h | h)
  · exact h1 (Nat.cast_injective h)
  · exact h2 (Nat.cast_injective h)

theorem beacon_carries (tail : ℕ → ℝ) : Carries initial DECODING_MODE_AUDIBLE 36 6 Decoder.audible.core.analysis
    heard.symbols (beaconFrames tail) 58 := by
  have htable : ∀ k < 18, (0 ≤ heard.symbols k ∧ heard.symbols k ≤ 31) ∧
      ((Finset.Ico (58 + 18 * k) (58 + 18 * k + 18)).filter fun i => ¬ Ahead (chordRank (beacon (i / 8)) ((k + 1) % 3))
        (getIdxsFromIdx (heard.symbols k)).1.toNat (getIdxsFromIdx (heard.symbols k)).2.toNat).card ≤ 6 := by
    decide +kernel
  intro k hk
  obtain ⟨hrange, hcount⟩ := htable k hk
  obtain ⟨⟨ha, hb, -⟩, -⟩ := tones_of_token hrange
  refine ⟨hrange, ?_⟩
  have hstart : blockStart 36 k = 18 * k := by
    unfold blockStart
    omega
  rw [hstart]
  exact (AllBut.of_count hcount).mono le_rfl fun i _ _ hahead =>
    (pulsePairs_sounds beacon_range tail i).shows Decoder.audible_settings rfl ha hb hahead

theorem beacon_airs (tail : ℕ → ℝ) : Airs initial DECODING_MODE_AUDIBLE 36 1 6 Decoder.audible.core.analysis
    (beaconFrames tail) 0 heard := by
  refine ⟨by decide, fun j _ hj => beacon_quiet tail (Or.inl hj), ?_, ?_, beacon_carries tail⟩
  · have htable : ∀ i < 5, sorted (chordRank (beacon i) 0) 0 = 0 := by decide +kernel
    refine AllBut.of_forall (fun j _ hj => ?_) 1
    have hj : j < 40 := hj
    rw [beacon_note, htable (j / 8) (by omega)]
    rfl
  · have htable : ∀ i < 8, 5 ≤ i → sorted (chordRank (beacon i) 0) 0 = 2 ∨ sorted (chordRank (beacon i) 0) 1 = 2 := by
      decide +kernel
    refine AllBut.of_forall (fun j hj hj' => ?_) (2 * 1 - 1)
    have hj : 40 ≤ j := hj
    have hj' : j < 58 := hj'
    rw [beacon_note]
    rcases htable (j / 8) (by omega) (by omega) with h | h
    · left
      rw [h]
      rfl
    · right
      rw [h]
      rfl

namespace Receiver

theorem words_received_hello : ∃ log R, Run (listen initial (pulsePairs beacon)) ⟨0, Decoder.audible, []⟩ log R ∧
    R.received = [word "hello0123".toList] := by
  have hHW : Decoder.hopSize (44100 : ℝ) ≤ 2048 := by
    rw [Decoder.hopSize_44100]
    decide
  have hreads : AllInSpectrum (dedicated 0) initial Decoder.audible.core.analysis :=
    reads_dedicated (t := 0) (by decide) default default initial ⟨rfl, rfl, rfl⟩
  have htune : InTune initial DecoderClass.AudibleMultiTone.mode Decoder.audible.core.analysis :=
    ⟨by rw [Decoder.audible_settings.fft]; decide, hreads 0 (by decide)⟩
  have hair : OnAir initial DecoderClass.AudibleMultiTone.mode 36 1 6 Decoder.audible.core.analysis
      (FrameBuffer.window 2048 (Decoder.hopSize (44100 : ℝ)) Decoder.audible.frames.mAnalBufferFloat
        (pulsePairs beacon))
      0 ([(heard, "hello0123".toList)].map Prod.fst) 390 := by
    rw [Decoder.hopSize_44100]
    refine ⟨beacon_airs _, by decide, fun j hj _ => beacon_quiet _ (Or.inr ?_)⟩
    have hj : 382 ≤ j := hj
    omega
  have hsent : ∀ p ∈ [(heard, "hello0123".toList)], Recoverable p.1 p.2 := by
    intro p hp
    rw [List.mem_singleton.1 hp]
    exact heard_recoverable
  obtain ⟨log, R, hrun, hplayed, hunread⟩ := listens rfl (by decide) hHW htune Decoder.audible_size
    Decoder.audible_settings.tolerance le_rfl (by decide) hair hsent 390 le_rfl
  obtain ⟨hbegins, hreceived⟩ := words_received rfl (by decide) hHW htune Decoder.audible_size
    Decoder.audible_settings.tolerance le_rfl (by decide) hair hsent hrun (le_of_eq hplayed)
  have hlast := hreceived [] (heard, "hello0123".toList) [] rfl
    (by rw [hplayed, Decoder.hopSize_44100]; decide) (Or.inr hunread)
  exact ⟨log, R, hrun, hbegins.eq_of_length_le hlast⟩

end Receiver

end Undertone
