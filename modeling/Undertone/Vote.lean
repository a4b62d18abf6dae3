import Undertone.Blocks

/-!
# The majority of a block

Every frame of a block casts two votes, for its two strongest tones. When more than half of the frames vote for the
same two tones, the other frames have too few votes left for a third tone, however they agree with each other, and the
two searches find exactly these two (`majority_vote`).
-/

namespace Undertone

open CountedLoop RingBuffer Globals Core

/-! ## Ballots -/

section Ballots

variable (pair : ℕ → ℕ × ℕ) (h a b : ℕ)

/-- The votes for `i` when each of `h` frames votes for a pair. -/
def ballots (i : ℕ) : ℤ :=
  ∑ k ∈ Finset.range h, ((if (pair k).1 = i then 1 else 0) + if (pair k).2 = i then 1 else 0)

/-- The frames that vote for `a` and `b`, in either order. -/
def agreeing : Finset ℕ := (Finset.range h).filter fun k => pair k = (a, b) ∨ pair k = (b, a)

theorem card_agreeing : ((agreeing pair h a b).card : ℤ) =
    ∑ k ∈ Finset.range h, if pair k = (a, b) ∨ pair k = (b, a) then 1 else 0 := by
  rw [agreeing, Finset.sum_boole]

theorem agreeing_comm : agreeing pair h a b = agreeing pair h b a := by
  unfold agreeing
  simp only [or_comm]

theorem agreeing_le_ballots : ((agreeing pair h a b).card : ℤ) ≤ ballots pair h a := by
  rw [card_agreeing, ballots]
  apply Finset.sum_le_sum
  intro k _
  by_cases hk : pair k = (a, b) ∨ pair k = (b, a)
  · rw [if_pos hk]
    rcases hk with hk | hk
    · rw [hk, if_pos rfl]
      split <;> decide
    · rw [hk, if_pos rfl]
      split <;> decide
  · rw [if_neg hk]
    split <;> split <;> decide

/-- A third choice has at most one vote of every frame that does not agree. -/
theorem ballots_le {c : ℕ} (hca : c ≠ a) (hcb : c ≠ b) (hpair : ∀ k < h, (pair k).1 ≠ (pair k).2) :
    ballots pair h c + (agreeing pair h a b).card ≤ h := by
  have hbound : (h : ℤ) = ∑ k ∈ Finset.range h, 1 := by simp
  rw [card_agreeing, ballots, ← Finset.sum_add_distrib, hbound]
  apply Finset.sum_le_sum
  intro k hk
  have hne := hpair k (Finset.mem_range.1 hk)
  by_cases hab : pair k = (a, b) ∨ pair k = (b, a)
  · rw [if_pos hab]
    rcases hab with hab | hab <;> rw [hab] <;> simp [Ne.symm hca, Ne.symm hcb]
  · rw [if_neg hab]
    by_cases h1 : (pair k).1 = c
    · rw [if_pos h1, if_neg fun h2 => hne (h1.trans h2.symm)]
      decide
    · rw [if_neg h1]
      split <;> decide

variable {pair h a b}

/-- A majority for two choices puts both ahead of every third. -/
theorem majority_ahead (hpair : ∀ k < h, (pair k).1 ≠ (pair k).2) (hmajority : h < 2 * (agreeing pair h a b).card)
    {c : ℕ} (hca : c ≠ a) (hcb : c ≠ b) : ballots pair h c < ballots pair h a ∧
      ballots pair h c < ballots pair h b := by
  have hc := ballots_le pair h a b hca hcb hpair
  have ha := agreeing_le_ballots pair h a b
  have hb := agreeing_le_ballots pair h b a
  rw [agreeing_comm] at hb
  constructor <;> omega

end Ballots

/-- Two indices whose values are ahead of all others are the two that the searches find. -/
theorem searches_find {reps : ℕ → ℤ} {n a b : ℕ} (hn : 2 ≤ n) (ha : a < n) (hb : b < n) (hab : a ≠ b)
    (hahead : ∀ c, c ≠ a → c ≠ b → reps c < reps a ∧ reps c < reps b) :
    (maxValueIdx intGt reps n, secondValueIdx intGt reps n) = (a, b) ∨
      (maxValueIdx intGt reps n, secondValueIdx intGt reps n) = (b, a) := by
  have hgt : ∀ x y : ℤ, intGt x y = true ↔ y < x := fun x y => decide_eq_true_iff
  have hmax : maxValueIdx intGt reps n = a ∨ maxValueIdx intGt reps n = b := by
    by_contra hne
    rw [not_or] at hne
    have hlt := (hahead _ hne.1 hne.2).1
    have hle := le_maxValueIdx hgt reps ha
    omega
  obtain ⟨-, hother⟩ := secondValueIdx_spec intGt reps hn
  have hsecond : ∀ c, c < n → c ≠ maxValueIdx intGt reps n → (c = a ∨ c = b) →
      secondValueIdx intGt reps n = a ∨ secondValueIdx intGt reps n = b := by
    intro c hc hne hcab
    by_contra hne'
    rw [not_or] at hne'
    have hlt := hahead _ hne'.1 hne'.2
    have hle := le_secondValueIdx hgt reps hc hne
    rcases hcab with rfl | rfl <;> omega
  rcases hmax with hmax | hmax
  · left
    rcases hsecond b hb (by omega) (Or.inr rfl) with h | h
    · exact absurd (h.trans hmax.symm) hother
    · rw [hmax, h]
  · right
    rcases hsecond a ha (by omega) (Or.inl rfl) with h | h
    · rw [hmax, h]
    · exact absurd (h.trans hmax.symm) hother

namespace Analysis

variable {F D : Type} [Doubles D] [Floats F D]

/-! ## The vote of a block of any length and any number of tones -/

/-- The two strongest tones of frame `k`, by their energy ratios. -/
def frameTones (mNumTones : ℕ) (mEnergyRatios : ℕ → ℕ → F) (k : ℕ) : ℕ × ℕ :=
  (maxValueIdx floatGt (mEnergyRatios k) mNumTones, secondValueIdx floatGt (mEnergyRatios k) mNumTones)

/-- The votes that the frames of a block cast, as `AnalyzeToken` counts them. -/
def countVotes (mNumTones frames : ℕ) (mEnergyRatios : ℕ → ℕ → F) : ℕ → ℤ :=
  forUp 0 frames (fun k reps =>
    let idx := (frameTones mNumTones mEnergyRatios k).1
    let reps := Function.update reps idx (reps idx + 1)
    let idx := (frameTones mNumTones mEnergyRatios k).2
    Function.update reps idx (reps idx + 1)) (fun _ => 0)

/-- `max1` and `max2` -/
def elect (mNumTones frames : ℕ) (mEnergyRatios : ℕ → ℕ → F) : ℕ × ℕ :=
  (maxValueIdx intGt (countVotes mNumTones frames mEnergyRatios) mNumTones,
    secondValueIdx intGt (countVotes mNumTones frames mEnergyRatios) mNumTones)

omit [Doubles D] in
theorem countVotes_eq (mNumTones frames : ℕ) (mEnergyRatios : ℕ → ℕ → F) (i : ℕ) :
    countVotes mNumTones frames mEnergyRatios i = ballots (frameTones mNumTones mEnergyRatios) frames i := by
  refine forUp_rule (P := fun n (reps : ℕ → ℤ) => ∀ i, reps i = ballots (frameTones mNumTones mEnergyRatios) n i)
    (Nat.zero_le _) (fun i => by simp [ballots]) ?_ i
  intro n reps _ _ ih i
  rw [two_votes, ih, ballots, ballots, Finset.sum_range_succ]

/-- The vote of the decoders is that of 9 tones and half a ring of frames. -/
theorem votedTones_elect (g : Globals F) (mode mDecoding : ℤ) (A : Analysis F) (t : ℕ) :
    votedTones g mode mDecoding A t =
      elect mNumTones (A.mSizeBlockCircularBuffer / 2) (toneRatio g mode mDecoding A t) := by
  have hvotes : votes g mode mDecoding A t (A.mSizeBlockCircularBuffer / 2) =
      countVotes mNumTones (A.mSizeBlockCircularBuffer / 2) (toneRatio g mode mDecoding A t) :=
    funext fun i => (countVotes_eq ..).symm
  rw [votedTones, elect, hvotes]

omit [Doubles D] [Floats F D] in
theorem idxToken_comm (mode idx1 idx2 : ℤ) : idxToken mode idx1 idx2 = idxToken mode idx2 idx1 := by
  have h := getIdxTokenFromIdxsTones_comm idx1 idx2
  unfold idxToken
  simp only [getIdxTokenFromIdxsTonesNonAudibleMultiTone, getIdxTokenFromIdxsTonesAudibleMultiTone,
    getIdxTokenFromIdxsTonesCompressionMultiTone, getIdxTokenFromIdxsTonesCustomMultiTone, h]

omit [Doubles D] in
/-- A majority of the frames elects its two tones. -/
theorem elect_majority {mNumTones frames : ℕ} (hn : 2 ≤ mNumTones) {a b : ℕ} (hab : a ≠ b) {mEnergyRatios : ℕ → ℕ → F}
    (hmajority : frames < 2 * (agreeing (frameTones mNumTones mEnergyRatios) frames a b).card) :
    elect mNumTones frames mEnergyRatios = (a, b) ∨ elect mNumTones frames mEnergyRatios = (b, a) := by
  have hpair : ∀ k < frames, (frameTones mNumTones mEnergyRatios k).1 ≠ (frameTones mNumTones mEnergyRatios k).2 :=
    fun k _ => (secondValueIdx_spec floatGt (mEnergyRatios k) hn).2.symm
  have hrange : a < mNumTones ∧ b < mNumTones := by
    obtain ⟨k, hk⟩ := Finset.card_pos.1
      (show 0 < (agreeing (frameTones mNumTones mEnergyRatios) frames a b).card by omega)
    have hmax := maxValueIdx_lt floatGt (mEnergyRatios k) (show 0 < mNumTones by omega)
    have hsecond := (secondValueIdx_spec floatGt (mEnergyRatios k) hn).1
    rcases (Finset.mem_filter.1 hk).2 with h | h
    · obtain ⟨rfl, rfl⟩ := Prod.mk.inj h
      exact ⟨hmax, hsecond⟩
    · obtain ⟨rfl, rfl⟩ := Prod.mk.inj h
      exact ⟨hsecond, hmax⟩
  refine searches_find hn hrange.1 hrange.2 hab fun c hca hcb => ?_
  rw [countVotes_eq, countVotes_eq, countVotes_eq]
  exact majority_ahead hpair hmajority hca hcb

/-- When more than half of the frames of a block have the two strongest tones `a` and `b`, the vote selects these two
and its token is theirs in either order; `AnalyzeToken` returns this token for the block of 9 tones and half a ring of
frames that it takes. -/
theorem majority_vote [CFFTOoura F] {tones frames : ℕ} (hn : 2 ≤ tones) {a b : ℕ} (hab : a ≠ b)
    {mEnergyRatios : ℕ → ℕ → F}
    (hmajority : frames < 2 * (agreeing (frameTones tones mEnergyRatios) frames a b).card) :
    (elect tones frames mEnergyRatios = (a, b) ∨ elect tones frames mEnergyRatios = (b, a)) ∧
    (∀ mode, idxToken mode (elect tones frames mEnergyRatios).1 (elect tones frames mEnergyRatios).2 =
      idxToken mode a b ∧ idxToken mode b a = idxToken mode a b) ∧
    ∀ (g : Globals F) (mode mDecoding : ℤ) (t : ℕ) (audioBuffer : ℕ → F) (A A' : Analysis F),
      A' = advanceWritePos (storeSpectrum audioBuffer A) →
      A'.getSizeFilledBlockCircularBuffer t ≥ A'.mSizeBlockCircularBuffer / 2 →
      tones = mNumTones → frames = A'.mSizeBlockCircularBuffer / 2 →
      mEnergyRatios = toneRatio g mode mDecoding A' t →
      (AnalyzeToken g mode mDecoding t audioBuffer A).1 = idxToken mode a b := by
  have helect := elect_majority hn hab hmajority
  have htoken : ∀ mode, idxToken mode (elect tones frames mEnergyRatios).1 (elect tones frames mEnergyRatios).2 =
      idxToken mode a b := by
    intro mode
    rcases helect with h | h
    · rw [h]
    · rw [h, idxToken_comm]
  refine ⟨helect, fun mode => ⟨htoken mode, idxToken_comm ..⟩, ?_⟩
  rintro g mode mDecoding t audioBuffer A A' rfl hfull rfl rfl rfl
  have hvalue := decodeBlock_value g mode mDecoding t (advanceWritePos (storeSpectrum audioBuffer A))
  rw [votedTones_elect] at hvalue
  exact (congrArg Prod.fst (if_pos hfull)).trans (hvalue.trans (htoken mode))

/-- The energy ratios of three frames of three tones: in two of them the tones 2 and 0 are on top, in either order, in
the third one the tones 1 and 2. -/
def threeFrames (k i : ℕ) : ℕ := ([[5, 1, 7], [7, 1, 5], [0, 9, 8]].getD k []).getD i 0

/-- Tone 2 has three votes, tone 0 two: they win. -/
theorem majority_vote_three : elect 3 3 (fun k i => (threeFrames k i : ℝ)) = (2, 0) ∨
    elect 3 3 (fun k i => (threeFrames k i : ℝ)) = (0, 2) := by
  have htones : ∀ k, frameTones 3 (fun k i => (threeFrames k i : ℝ)) k =
      (maxValueIdx (fun x y => decide (y < x)) (threeFrames k) 3,
        secondValueIdx (fun x y => decide (y < x)) (threeFrames k) 3) := by
    intro k
    have hcmp : ∀ i < 3, ∀ j < 3, floatGt (threeFrames k i : ℝ) (threeFrames k j : ℝ) =
        decide (threeFrames k j < threeFrames k i) := fun i _ j _ => decide_eq_decide.2 Nat.cast_lt
    exact congrArg₂ Prod.mk (maxValueIdx_rank (by decide) hcmp) (secondValueIdx_rank (by decide) hcmp)
  have hmajority : 3 < 2 * (agreeing (frameTones 3 (fun k i => (threeFrames k i : ℝ))) 3 2 0).card := by
    rw [funext htones]
    decide +kernel
  exact (majority_vote (by decide) (by decide) hmajority).1

end Analysis

end Undertone
