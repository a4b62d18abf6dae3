import Undertone.Chord

/-!
# The search of the decoder of all modes

`AnalyzeStartTokens` notes the two strongest tones of every frame in a ring and looks for the start tokens in it. Each
single-mode decoder notes a frame before it moves the write position. `DecoderAllMultiTone` shares one write position
among three modes and moves it in the round of the first, so the notes of the other two land one slot further on, and
their windows are read in another order. `allModes_agree_iff` says for which frames this makes no difference, and
`allModes_late` is a sound for which it does.
-/

namespace Undertone

open CountedLoop RingBuffer Globals

namespace Analysis

variable {F D : Type} [Doubles D] [Floats F D] [CFFTOoura F]

/-! ## What the search notes -/

/-- The energy ratio of tone `i` in a spectrum. -/
def startRatio (L : Lane F) (mSpecMag : ℕ → F) (i : ℕ) : F :=
  let energyBlock : F := forUp 0 (L.mEndBin - L.mBeginBin + 1).toNat (fun i energyBlock =>
    energyBlock + cell mSpecMag (L.mBeginBin + i)) (Floats.lit 0)
  let energyBlock := energyBlock / ofInt (L.mEndBin - L.mBeginBin + 1)
  let mEvalToneMags := fun n : ℕ => cell mSpecMag (L.mFreqsBins i - mBinWidth + n)
  let energyTone : D := Floats.toDouble (Globals.sum mEvalToneMags mSizeTokenBinAnal) / Doubles.lit mSizeTokenBinAnal
  Floats.ofDouble (Doubles.lit 20 * Doubles.log10 (energyTone / Floats.toDouble energyBlock))

/-- The two strongest tones of a spectrum, in the order of the exchange sort. -/
def startTones (L : Lane F) (mSpecMag : ℕ → F) : ℤ × ℤ :=
  let mEnergyRatiosIdx := (sortTones Floats.lt mNumTones (startRatio L mSpecMag)).2
  (mEnergyRatiosIdx 0, mEnergyRatiosIdx 1)

/-- The notes that the counts read. -/
def notes (L : Lane F) (pos : ℕ) : ℤ × ℤ := (L.mBlockEnergyRatiosTokenIdx pos, L.mBlockEnergyRatiosTokenIdx2 pos)

omit [CFFTOoura F] in
/-- Two lanes that listen to the same bins rank every spectrum the same way. -/
theorem startTones_congr {L L' : Lane F} (hbins : ∀ i < mNumTones, L.mFreqsBins i = L'.mFreqsBins i)
    (hbegin : L.mBeginBin = L'.mBeginBin) (hend : L.mEndBin = L'.mEndBin) (mSpecMag : ℕ → F) :
    startTones L mSpecMag = startTones L' mSpecMag := by
  have hratio : ∀ i < mNumTones, startRatio L mSpecMag i = startRatio L' mSpecMag i := fun i hi => by
    simp only [startRatio, hbins i hi, hbegin, hend]
  have hsort : (sortTones Floats.lt mNumTones (startRatio L mSpecMag)).2 =
      (sortTones Floats.lt mNumTones (startRatio L' mSpecMag)).2 :=
    sortTones_rank fun i hi j hj => by rw [hratio i hi, hratio j hj]
  simp only [startTones, hsort]

omit [CFFTOoura F] in
/-- The order of the tones is that of any ranking that compares as their energy ratios do. -/
theorem startTones_rank {L : Lane F} {mSpecMag : ℕ → F} {rank : ℕ → ℕ} (h : ∀ i < mNumTones, ∀ j < mNumTones,
    Floats.lt (startRatio L mSpecMag i) (startRatio L mSpecMag j) = decide (rank i < rank j)) :
    startTones L mSpecMag = (((sorted rank 0 : ℕ) : ℤ), ((sorted rank 1 : ℕ) : ℤ)) := by
  have hsort : (sortTones Floats.lt mNumTones (startRatio L mSpecMag)).2 = sorted rank := sortTones_rank h
  simp only [startTones, hsort]

omit [CFFTOoura F] in
theorem rankTones_notes (t : ℕ) (A : Analysis F) :
    notes ((rankTones t A).lane t) = put A.mSizeBlockCircularBuffer (notes (A.lane t)) A.mWritePosInBlockCircularBuffer
      (startTones (A.lane t) A.mSpectralAnalysis.mSpecMag) := by
  have hratio : ∀ i < mNumTones, (ComputeStatsStartTokens t A).mEnergyRatios i =
      startRatio (A.lane t) A.mSpectralAnalysis.mSpecMag i := fun i hi => by
    simp only [ComputeStatsStartTokens]
    rw [forUp_fill 0 mNumTones]
    exact if_pos ⟨Nat.zero_le i, hi⟩
  have hsort : (sortTones Floats.lt mNumTones (ComputeStatsStartTokens t A).mEnergyRatios).2 =
      (sortTones Floats.lt mNumTones (startRatio (A.lane t) A.mSpectralAnalysis.mSpecMag)).2 :=
    sortTones_rank fun i hi j hj => by rw [hratio i hi, hratio j hj]
  have hsize : (ComputeStatsStartTokens t A).mSizeBlockCircularBuffer = A.mSizeBlockCircularBuffer := rfl
  have hwrite : (ComputeStatsStartTokens t A).mWritePosInBlockCircularBuffer = A.mWritePosInBlockCircularBuffer := rfl
  have hlane : (ComputeStatsStartTokens t A).lane = A.lane := rfl
  funext pos
  simp only [rankTones, hsort, hsize, hwrite, hlane, setLane, Function.update_self, notes, put, startTones]
  by_cases hpos : pos = A.mWritePosInBlockCircularBuffer % A.mSizeBlockCircularBuffer
  · subst hpos
    simp only [Function.update_self]
  · simp only [Function.update_of_ne hpos]
    rfl

/-! ## When a window holds the start tokens -/

/-- Enough of the first half of `n` notes are of the first start token, and enough of the second half of the second. -/
def Opens (n : ℕ) (mnToleranceFrames : ℤ) (w : ℕ → ℤ × ℤ) : Prop :=
  ((n / 2 : ℕ) : ℤ) - mnToleranceFrames ≤
      ((Finset.Ico 0 (n / 2)).filter fun i => (w i).1 = idxTonesFrontDoorToken1.1).card ∧
    ((n / 2 : ℕ) : ℤ) - mnToleranceFrames * 2 ≤
      ((Finset.Ico (n / 2) n).filter fun i =>
        (w i).1 = idxTonesFrontDoorToken2.1 ∨ (w i).2 = idxTonesFrontDoorToken2.1).card

instance (n : ℕ) (mnToleranceFrames : ℤ) (w : ℕ → ℤ × ℤ) : Decidable (Opens n mnToleranceFrames w) :=
  inferInstanceAs (Decidable (_ ∧ _))

theorem Opens.congr {n : ℕ} {mnToleranceFrames : ℤ} {w w' : ℕ → ℤ × ℤ} (h : ∀ i < n, w i = w' i) :
    Opens n mnToleranceFrames w ↔ Opens n mnToleranceFrames w' := by
  have hfirst : (Finset.Ico 0 (n / 2)).filter (fun i => (w i).1 = idxTonesFrontDoorToken1.1) =
      (Finset.Ico 0 (n / 2)).filter fun i => (w' i).1 = idxTonesFrontDoorToken1.1 :=
    Finset.filter_congr fun i hi => by
      have := (Finset.mem_Ico.1 hi).2
      rw [h i (by omega)]
  have hsecond : (Finset.Ico (n / 2) n).filter (fun i =>
        (w i).1 = idxTonesFrontDoorToken2.1 ∨ (w i).2 = idxTonesFrontDoorToken2.1) =
      (Finset.Ico (n / 2) n).filter fun i =>
        (w' i).1 = idxTonesFrontDoorToken2.1 ∨ (w' i).2 = idxTonesFrontDoorToken2.1 :=
    Finset.filter_congr fun i hi => by rw [h i (Finset.mem_Ico.1 hi).2]
  unfold Opens
  rw [hfirst, hsecond]

omit [Doubles D] [Floats F D] [CFFTOoura F] in
theorem startFound_iff (t : ℕ) (A : Analysis F) :
    startFound t A = true ↔
      Opens A.mSizeBlockCircularBuffer A.mnToleranceFrames fun i => notes (A.lane t) (A.blockPos t i) := by
  have hfirst : A.firstTokenRepetitions t = (((Finset.Ico 0 (A.mSizeBlockCircularBuffer / 2)).filter fun i =>
      (notes (A.lane t) (A.blockPos t i)).1 = idxTonesFrontDoorToken1.1).card : ℤ) :=
    forUp_count (Nat.zero_le _) _
  have hsecond : A.secondTokenRepetitions t =
      (((Finset.Ico (A.mSizeBlockCircularBuffer / 2) A.mSizeBlockCircularBuffer).filter fun i =>
        (notes (A.lane t) (A.blockPos t i)).1 = idxTonesFrontDoorToken2.1 ∨
          (notes (A.lane t) (A.blockPos t i)).2 = idxTonesFrontDoorToken2.1).card : ℤ) :=
    forUp_count (Nat.div_le_self _ _) _
  unfold startFound Opens
  rw [hfirst, hsecond]
  by_cases h1 : ((A.mSizeBlockCircularBuffer / 2 : ℕ) : ℤ) - A.mnToleranceFrames ≤
      (((Finset.Ico 0 (A.mSizeBlockCircularBuffer / 2)).filter fun i =>
        (notes (A.lane t) (A.blockPos t i)).1 = idxTonesFrontDoorToken1.1).card : ℤ)
  · rw [if_pos h1, decide_eq_true_iff]
    exact ⟨fun h2 => ⟨h1, h2⟩, fun h => h.2⟩
  · rw [if_neg h1]
    exact iff_of_false (by simp) fun h => h1 h.1

/-! ## Runs of the search -/

/-- The state after `k` frames. -/
def feed (lanes : ℕ) (frames : ℕ → ℕ → F) (A0 : Analysis F) : ℕ → Analysis F
  | 0 => A0
  | k + 1 => (AnalyzeStartTokens lanes (frames k) (feed lanes frames A0 k)).2

/-- What `AnalyzeStartTokens` returns for frame `k`. -/
def report (lanes : ℕ) (frames : ℕ → ℕ → F) (A0 : Analysis F) (k : ℕ) : ℤ :=
  (AnalyzeStartTokens lanes (frames k) (feed lanes frames A0 k)).1

/-- The spectra of the first `k` frames, one after the other in the same memory. -/
def spectra (frames : ℕ → ℕ → F) (S : SpectralAnalysis F) : ℕ → SpectralAnalysis F
  | 0 => S
  | k + 1 => (spectra frames S k).doFFT (frames k)

/-- The notes of mode `t`, in the order of the frames: the cells that the constructor fills, then one for each frame. -/
def heard (A0 : Analysis F) (frames : ℕ → ℕ → F) (t q : ℕ) : ℤ × ℤ :=
  if q < A0.mSizeBlockCircularBuffer then (-1, -1)
  else startTones (A0.lane t)
    (spectra frames A0.mSpectralAnalysis (q - A0.mSizeBlockCircularBuffer + 1)).mSpecMag

/-- How many slots behind its frame the notes of mode `t` are. -/
def lag (t : ℕ) : ℕ := if t = 0 then 0 else 1

/-- With frame `k` the last `n` notes of mode `t` hold the start tokens: taken in their order where `lag = 1`, and with
the oldest one at the end where `lag = 0`. -/
def OpensAt (A0 : Analysis F) (frames : ℕ → ℕ → F) (lag t k : ℕ) : Prop :=
  A0.mSizeBlockCircularBuffer ≤ k + 2 ∧
    Opens A0.mSizeBlockCircularBuffer A0.mnToleranceFrames fun i =>
      heard A0 frames t (k + 1 + (i + 1 - lag) % A0.mSizeBlockCircularBuffer)

instance (A0 : Analysis F) (frames : ℕ → ℕ → F) (lag t k : ℕ) : Decidable (OpensAt A0 frames lag t k) :=
  inferInstanceAs (Decidable (_ ∧ _))

/-- The lowest of the next modes from `t` on that has `p`, as `AnalyzeStartTokens` returns it. -/
def firstOf (p : ℕ → Bool) : ℕ → ℕ → ℤ
  | 0, _ => 0
  | modes + 1, t => if p t then 1 + t else firstOf p modes (t + 1)

theorem firstOf_range (p : ℕ → Bool) : ∀ modes t, firstOf p modes t = 0 ∨ 1 + (t : ℤ) ≤ firstOf p modes t
  | 0, _ => Or.inl rfl
  | modes + 1, t => by
    unfold firstOf
    by_cases hp : p t = true
    · rw [if_pos hp]
      exact Or.inr (le_refl _)
    · rw [if_neg hp]
      rcases firstOf_range p modes (t + 1) with h | h
      · exact Or.inl h
      · exact Or.inr (by push_cast at h; omega)

/-- Two searches agree when they have decided the same for every mode up to the first that either finds. -/
theorem firstOf_eq_iff (p q : ℕ → Bool) : ∀ modes t, firstOf p modes t = firstOf q modes t ↔
    ∀ s, t ≤ s → s < t + modes → (∀ r, t ≤ r → r < s → p r = false ∧ q r = false) → p s = q s
  | 0, t => iff_of_true rfl fun s hts hs => absurd hs (by omega)
  | modes + 1, t => by
    have hp := firstOf_range p modes (t + 1)
    have hq := firstOf_range q modes (t + 1)
    push_cast at hp hq
    unfold firstOf
    by_cases hpq : p t = q t
    · rw [hpq]
      cases hqt : q t with
      | true =>
        refine iff_of_true rfl fun s hts _ hprev => ?_
        rcases Nat.eq_or_lt_of_le hts with rfl | hlt
        · exact hpq
        · exact absurd (hprev t (le_refl t) hlt).2 (by rw [hqt]; simp)
      | false =>
        simp only [Bool.false_eq_true, if_false]
        rw [firstOf_eq_iff p q modes (t + 1)]
        constructor
        · intro h s hts hs hprev
          rcases Nat.eq_or_lt_of_le hts with rfl | hlt
          · exact hpq
          · exact h s hlt (by omega) fun r htr hrs => hprev r (by omega) hrs
        · intro h s hts hs hprev
          refine h s (by omega) (by omega) fun r htr hrs => ?_
          rcases Nat.eq_or_lt_of_le htr with rfl | hlt
          · exact ⟨hpq.trans hqt, hqt⟩
          · exact hprev r hlt hrs
    · refine iff_of_false (fun h => ?_) fun h => hpq (h t (le_refl t) (by omega) fun r htr hrs => absurd hrs (by omega))
      cases hpt : p t <;> cases hqt : q t
      · exact hpq (hpt.trans hqt.symm)
      · simp only [hpt, hqt, Bool.false_eq_true, if_false, if_true] at h
        omega
      · simp only [hpt, hqt, Bool.false_eq_true, if_false, if_true] at h
        omega
      · exact hpq (hpt.trans hqt.symm)

theorem firstOf_eq_zero {p : ℕ → Bool} {modes : ℕ} : firstOf p modes 0 = 0 ↔ ∀ s < modes, p s = false := by
  have hnone : ∀ modes t, firstOf (fun _ => false) modes t = 0 := fun modes => by
    induction modes with
    | zero => exact fun _ => rfl
    | succ modes ih => exact fun t => (if_neg (by simp)).trans (ih (t + 1))
  rw [← hnone modes 0, firstOf_eq_iff]
  constructor
  · intro h s hs
    induction s using Nat.strong_induction_on with
    | _ s ih => exact h s (Nat.zero_le s) (by omega) fun r _ hrs => ⟨ih r hrs (by omega), rfl⟩
  · exact fun h s _ hs _ => h s (by omega)

/-- A decoder before its first frame. -/
structure Fresh (lanes : ℕ) (A0 : Analysis F) : Prop where
  write : A0.mWritePosInBlockCircularBuffer = 0
  read : ∀ t < lanes, (A0.lane t).mReadPosInBlockCircularBuffer = 0
  notes : ∀ t < lanes, ∀ pos < A0.mSizeBlockCircularBuffer, notes (A0.lane t) pos = (-1, -1)

/-- A lane that has noted `k` frames and looked for the start tokens with the first `m` of them in vain. -/
structure LaneAt (A0 : Analysis F) (frames : ℕ → ℕ → F) (t k m : ℕ) (L : Lane F) : Prop where
  bins : L.mFreqsBins = (A0.lane t).mFreqsBins
  beginBin : L.mBeginBin = (A0.lane t).mBeginBin
  endBin : L.mEndBin = (A0.lane t).mEndBin
  read : L.mReadPosInBlockCircularBuffer = (m + 2 - A0.mSizeBlockCircularBuffer) % A0.mSizeBlockCircularBuffer
  notes : Latest A0.mSizeBlockCircularBuffer (Analysis.notes L) (fun q => heard A0 frames t (q - lag t))
    (A0.mSizeBlockCircularBuffer + k + lag t)

/-- In the loop over the modes, with frame `k`: the modes before `t` have noted it. -/
structure Midway (lanes : ℕ) (A0 : Analysis F) (frames : ℕ → ℕ → F) (k t : ℕ) (A : Analysis F) : Prop where
  size : A.mSizeBlockCircularBuffer = A0.mSizeBlockCircularBuffer
  tolerance : A.mnToleranceFrames = A0.mnToleranceFrames
  spectral : A.mSpectralAnalysis = spectra frames A0.mSpectralAnalysis (k + 1)
  write : A.mWritePosInBlockCircularBuffer = (k + if t = 0 then 0 else 1) % A0.mSizeBlockCircularBuffer
  noted : ∀ s < t, LaneAt A0 frames s (k + 1) (k + 1) (A.lane s)
  waiting : ∀ s < lanes, t ≤ s → LaneAt A0 frames s k k (A.lane s)

/-- A lane notes a frame. -/
theorem LaneAt.note {A0 : Analysis F} {frames : ℕ → ℕ → F} {t k m : ℕ} {L L' : Lane F} (h : LaneAt A0 frames t k m L)
    (hbins : L'.mFreqsBins = L.mFreqsBins) (hbegin : L'.mBeginBin = L.mBeginBin) (hend : L'.mEndBin = L.mEndBin)
    (hread : L'.mReadPosInBlockCircularBuffer = L.mReadPosInBlockCircularBuffer) {w : ℕ}
    (hw : w % A0.mSizeBlockCircularBuffer = (k + lag t) % A0.mSizeBlockCircularBuffer)
    (hnotes : Analysis.notes L' = put A0.mSizeBlockCircularBuffer (Analysis.notes L) w
      (startTones L (spectra frames A0.mSpectralAnalysis (k + 1)).mSpecMag)) :
    LaneAt A0 frames t (k + 1) m L' := by
  refine ⟨hbins.trans h.bins, hbegin.trans h.beginBin, hend.trans h.endBin, hread.trans h.read, ?_⟩
  have hslot : w % A0.mSizeBlockCircularBuffer =
      (A0.mSizeBlockCircularBuffer + k + lag t) % A0.mSizeBlockCircularBuffer := by
    rw [hw, Nat.add_assoc, Nat.add_mod_left]
  have hput : Analysis.notes L' = put A0.mSizeBlockCircularBuffer (Analysis.notes L)
      (A0.mSizeBlockCircularBuffer + k + lag t)
      (startTones L (spectra frames A0.mSpectralAnalysis (k + 1)).mSpecMag) := by
    rw [hnotes]
    unfold put
    rw [hslot]
  have hnext : A0.mSizeBlockCircularBuffer + (k + 1) + lag t = A0.mSizeBlockCircularBuffer + k + lag t + 1 := by omega
  rw [hput, hnext]
  refine h.notes.write ?_
  have hq : A0.mSizeBlockCircularBuffer + k + lag t - lag t = A0.mSizeBlockCircularBuffer + k := by omega
  have hk : A0.mSizeBlockCircularBuffer + k - A0.mSizeBlockCircularBuffer + 1 = k + 1 := by omega
  rw [hq, heard, if_neg (by omega), hk]
  exact startTones_congr (fun i _ => congrFun h.bins i) h.beginBin h.endBin _

/-- The window of a lane that has noted frame `k` and not yet looked. -/
theorem LaneAt.window {A0 : Analysis F} {frames : ℕ → ℕ → F} {t k : ℕ} {L : Lane F}
    (h : LaneAt A0 frames t (k + 1) k L) (hk : A0.mSizeBlockCircularBuffer ≤ k + 2) {i : ℕ}
    (hi : i < A0.mSizeBlockCircularBuffer) :
    Analysis.notes L ((L.mReadPosInBlockCircularBuffer + i) % A0.mSizeBlockCircularBuffer) =
      heard A0 frames t (k + 1 + (i + 1 - lag t) % A0.mSizeBlockCircularBuffer) := by
  have hlag : lag t ≤ 1 := by
    unfold lag
    split <;> omega
  have hoff := Nat.mod_lt (i + 1 - lag t) (show 0 < A0.mSizeBlockCircularBuffer by omega)
  have hcell := h.notes (k + 1 + lag t + (i + 1 - lag t) % A0.mSizeBlockCircularBuffer) (by omega) (by omega)
  have hslot : (k + 1 + lag t + (i + 1 - lag t) % A0.mSizeBlockCircularBuffer) % A0.mSizeBlockCircularBuffer =
      (L.mReadPosInBlockCircularBuffer + i) % A0.mSizeBlockCircularBuffer := by
    have hsum : k + 1 + lag t + (i + 1 - lag t) =
        k + 2 - A0.mSizeBlockCircularBuffer + i + A0.mSizeBlockCircularBuffer := by omega
    rw [h.read, Nat.add_mod_mod, hsum, Nat.add_mod_right, Nat.mod_add_mod]
  have hq : k + 1 + lag t + (i + 1 - lag t) % A0.mSizeBlockCircularBuffer - lag t =
      k + 1 + (i + 1 - lag t) % A0.mSizeBlockCircularBuffer := by omega
  rw [RingBuffer.get, hslot] at hcell
  exact hcell.trans (congrArg (heard A0 frames t) hq)

omit [CFFTOoura F] in
/-- The loop of the search, on a ring whose window is full: one look, and a step ahead when it fails. -/
theorem searchLoop_full {found : ℕ → Analysis F → Bool} {t : ℕ} {A : Analysis F} (hn : 0 < A.mSizeBlockCircularBuffer)
    (hread : (A.lane t).mReadPosInBlockCircularBuffer < A.mSizeBlockCircularBuffer)
    (hwrite : A.mWritePosInBlockCircularBuffer < A.mSizeBlockCircularBuffer)
    (hfull : A.getSizeFilledBlockCircularBuffer t + 1 = A.mSizeBlockCircularBuffer) :
    searchLoop found t A.mSizeBlockCircularBuffer A =
      if found t A then (true, beginMessage t A) else (false, advanceReadPos t A) := by
  obtain ⟨fuel, hfuel⟩ : ∃ fuel, A.mSizeBlockCircularBuffer = fuel + 1 := ⟨_, (Nat.sub_add_cancel hn).symm⟩
  rw [hfuel, searchLoop, if_pos (by omega)]
  by_cases hfound : found t A = true
  · rw [if_pos hfound, if_pos hfound]
  · rw [if_neg hfound, if_neg hfound]
    cases fuel with
    | zero => rfl
    | succ fuel =>
      have hmoved : (advanceReadPos t A).getSizeFilledBlockCircularBuffer t + 1 =
          A.getSizeFilledBlockCircularBuffer t := by
        have hpos : 0 < A.getSizeFilledBlockCircularBuffer t := by omega
        have hlane : ((advanceReadPos t A).lane t).mReadPosInBlockCircularBuffer =
            ((A.lane t).mReadPosInBlockCircularBuffer + 1) % A.mSizeBlockCircularBuffer := by
          simp only [advanceReadPos, setLane, Function.update_self]
        rw [getSizeFilledBlockCircularBuffer, hlane]
        exact filled_read hread hwrite hpos
      have hsize : (advanceReadPos t A).mSizeBlockCircularBuffer = A.mSizeBlockCircularBuffer := rfl
      rw [searchLoop, if_neg (by rw [hsize]; omega)]

omit [CFFTOoura F] in
theorem searchLoop_short {found : ℕ → Analysis F → Bool} {t fuel : ℕ} {A : Analysis F}
    (hshort : A.getSizeFilledBlockCircularBuffer t + 1 < A.mSizeBlockCircularBuffer) :
    searchLoop found t fuel A = (false, A) := by
  cases fuel with
  | zero => rfl
  | succ fuel => rw [searchLoop, if_neg (by omega)]

omit [Doubles D] [Floats F D] [CFFTOoura F] in
theorem searchLoop_missed {found : ℕ → Analysis F → Bool} {t : ℕ} : ∀ {fuel : ℕ} {A : Analysis F},
    (searchLoop found t fuel A).1 = false →
    (searchLoop found t fuel A).2.mSizeBlockCircularBuffer = A.mSizeBlockCircularBuffer ∧
      (searchLoop found t fuel A).2.mWritePosInBlockCircularBuffer = A.mWritePosInBlockCircularBuffer ∧
      ∀ s, s ≠ t → (searchLoop found t fuel A).2.lane s = A.lane s
  | 0, A, _ => ⟨rfl, rfl, fun _ _ => rfl⟩
  | fuel + 1, A, h => by
    unfold searchLoop at h ⊢
    split at h
    · rename_i hfull
      split at h
      · exact absurd h (by simp)
      · rename_i hfound
        rw [if_pos hfull, if_neg hfound]
        obtain ⟨hsize, hwrite, hlane⟩ := searchLoop_missed h
        refine ⟨hsize, hwrite, fun s hs => (hlane s hs).trans ?_⟩
        simp only [advanceReadPos, setLane, Function.update_of_ne hs]
    · rename_i hfull
      rw [if_neg hfull]
      exact ⟨rfl, rfl, fun _ _ => rfl⟩

section Round

variable {lanes : ℕ} {A0 : Analysis F} {frames : ℕ → ℕ → F} {k t : ℕ} {A : Analysis F}

/-- The state in which mode `t` looks for the start tokens: it has noted the frame. -/
def looking (t : ℕ) (A : Analysis F) : Analysis F := if t = 0 then (rankTones t A).advanceWritePos else rankTones t A

omit [CFFTOoura F] in
theorem searchMode_eq (t : ℕ) (A : Analysis F) :
    searchMode t A = searchLoop startFound t (looking t A).mSizeBlockCircularBuffer (looking t A) := rfl

omit [CFFTOoura F] in
theorem looking_lane (t s : ℕ) (A : Analysis F) : (looking t A).lane s = (rankTones t A).lane s := by
  unfold looking
  split <;> rfl

omit [CFFTOoura F] in
theorem looking_lane_of_ne {t s : ℕ} (h : s ≠ t) (A : Analysis F) : (looking t A).lane s = A.lane s := by
  rw [looking_lane]
  simp only [rankTones, setLane, Function.update_of_ne h]
  rfl

omit [CFFTOoura F] in
@[simp] theorem looking_size (t : ℕ) (A : Analysis F) :
    (looking t A).mSizeBlockCircularBuffer = A.mSizeBlockCircularBuffer := by
  unfold looking
  split <;> rfl

omit [CFFTOoura F] in
@[simp] theorem looking_tolerance (t : ℕ) (A : Analysis F) : (looking t A).mnToleranceFrames = A.mnToleranceFrames := by
  unfold looking
  split <;> rfl

omit [CFFTOoura F] in
@[simp] theorem looking_spectral (t : ℕ) (A : Analysis F) : (looking t A).mSpectralAnalysis = A.mSpectralAnalysis := by
  unfold looking
  split <;> rfl

theorem Midway.looking_write (h : Midway lanes A0 frames k t A) :
    (looking t A).mWritePosInBlockCircularBuffer = (k + 1) % A0.mSizeBlockCircularBuffer := by
  have hw := h.write
  unfold looking
  by_cases ht : t = 0
  · rw [if_pos ht] at hw ⊢
    show (A.mWritePosInBlockCircularBuffer + 1) % A.mSizeBlockCircularBuffer = _
    rw [hw, h.size, Nat.mod_add_mod]
  · rw [if_neg ht] at hw ⊢
    exact hw

theorem Midway.looking_lane (h : Midway lanes A0 frames k t A) (ht : t < lanes) :
    LaneAt A0 frames t (k + 1) k ((looking t A).lane t) := by
  have hnotes := rankTones_notes t A
  have hlane : ∀ {α : Type} (f : Lane F → α), (∀ L a b c d, f { L with
      mBlockEnergyRatiosTokenIdx := a, mBlockEnergyRatiosTokenIdx2 := b,
      mBlockEnergyRatiosTokenIdx3 := c, mBlockEnergyRatiosTokenIdx4 := d } = f L) →
      f ((rankTones t A).lane t) = f (A.lane t) := fun f hf => by
    simp only [rankTones, setLane, Function.update_self]
    exact hf _ _ _ _ _
  have hw : A.mWritePosInBlockCircularBuffer % A0.mSizeBlockCircularBuffer =
      (k + lag t) % A0.mSizeBlockCircularBuffer := by
    rw [h.write, Nat.mod_mod, lag]
  rw [h.size, h.spectral] at hnotes
  rw [Analysis.looking_lane]
  exact (h.waiting t ht (le_refl t)).note (hlane (·.mFreqsBins) fun _ _ _ _ _ => rfl)
    (hlane (·.mBeginBin) fun _ _ _ _ _ => rfl) (hlane (·.mEndBin) fun _ _ _ _ _ => rfl)
    (hlane (·.mReadPosInBlockCircularBuffer) fun _ _ _ _ _ => rfl) hw hnotes

/-- The round of mode `t` is over, without start tokens. -/
theorem Midway.next (h : Midway lanes A0 frames k t A) {B : Analysis F}
    (hsize : B.mSizeBlockCircularBuffer = (looking t A).mSizeBlockCircularBuffer)
    (htolerance : B.mnToleranceFrames = (looking t A).mnToleranceFrames)
    (hspectral : B.mSpectralAnalysis = (looking t A).mSpectralAnalysis)
    (hwrite : B.mWritePosInBlockCircularBuffer = (looking t A).mWritePosInBlockCircularBuffer)
    (hother : ∀ s, s ≠ t → B.lane s = (looking t A).lane s)
    (hlane : LaneAt A0 frames t (k + 1) (k + 1) (B.lane t)) : Midway lanes A0 frames k (t + 1) B := by
  refine ⟨?_, ?_, ?_, ?_, fun s hs => ?_, fun s hs hts => ?_⟩
  · rw [hsize, looking_size, h.size]
  · rw [htolerance, looking_tolerance, h.tolerance]
  · rw [hspectral, looking_spectral, h.spectral]
  · rw [hwrite, h.looking_write, if_neg (Nat.succ_ne_zero t)]
  · rcases Nat.lt_succ_iff_lt_or_eq.1 hs with hlt | rfl
    · rw [hother s (by omega), looking_lane_of_ne (by omega)]
      exact h.noted s hlt
    · exact hlane
  · rw [hother s (by omega), looking_lane_of_ne (by omega)]
    exact h.waiting s hs (by omega)

/-- One round of the loop over the modes: it finds the start tokens exactly when the window holds them. -/
theorem Midway.searchMode (h : Midway lanes A0 frames k t A) (ht : t < lanes) (hn : 0 < A0.mSizeBlockCircularBuffer) :
    (searchMode t A).1 = decide (OpensAt A0 frames (lag t) t k) ∧
      ((searchMode t A).1 = false → Midway lanes A0 frames k (t + 1) (searchMode t A).2) := by
  have hlane := h.looking_lane ht
  have hwrite := h.looking_write
  have hsize : (looking t A).mSizeBlockCircularBuffer = A0.mSizeBlockCircularBuffer := by rw [looking_size, h.size]
  have hmod : ∀ x, x % A0.mSizeBlockCircularBuffer < A0.mSizeBlockCircularBuffer := fun x => Nat.mod_lt x hn
  have hfilled : (looking t A).getSizeFilledBlockCircularBuffer t = k + 1 - (k + 2 - A0.mSizeBlockCircularBuffer) := by
    rw [getSizeFilledBlockCircularBuffer, hsize, hwrite, hlane.read, filled_mod (by omega) (by omega)]
  rw [searchMode_eq]
  by_cases hk : A0.mSizeBlockCircularBuffer ≤ k + 2
  · have hfound : startFound t (looking t A) = decide (OpensAt A0 frames (lag t) t k) := by
      rw [Bool.eq_iff_iff, startFound_iff, decide_eq_true_iff, hsize, looking_tolerance, h.tolerance]
      have hwindow : Opens A0.mSizeBlockCircularBuffer A0.mnToleranceFrames
            (fun i => notes ((looking t A).lane t) ((looking t A).blockPos t i)) ↔
          Opens A0.mSizeBlockCircularBuffer A0.mnToleranceFrames
            fun i => heard A0 frames t (k + 1 + (i + 1 - lag t) % A0.mSizeBlockCircularBuffer) :=
        Opens.congr fun i hi => by
          rw [blockPos, hsize]
          exact hlane.window hk hi
      rw [hwindow]
      exact ⟨fun ho => ⟨hk, ho⟩, fun ho => ho.2⟩
    rw [searchLoop_full (by rwa [hsize]) (by rw [hsize, hlane.read]; exact hmod _) (by rw [hsize, hwrite]; exact hmod _)
      (by rw [hfilled, hsize]; omega), hfound]
    by_cases hopens : OpensAt A0 frames (lag t) t k
    · rw [decide_eq_true hopens, if_pos rfl]
      exact ⟨rfl, fun hf => absurd hf (by simp)⟩
    · rw [decide_eq_false hopens, if_neg (by simp)]
      refine ⟨rfl, fun _ => h.next rfl rfl rfl rfl (fun s hs => ?_) ?_⟩
      · simp only [advanceReadPos, setLane, Function.update_of_ne hs]
      · have hread : (((looking t A).lane t).mReadPosInBlockCircularBuffer + 1) % A0.mSizeBlockCircularBuffer =
            (k + 1 + 2 - A0.mSizeBlockCircularBuffer) % A0.mSizeBlockCircularBuffer := by
          rw [hlane.read, Nat.mod_add_mod]
          congr 1
          omega
        simp only [advanceReadPos, setLane, Function.update_self, hsize, hread]
        exact ⟨hlane.bins, hlane.beginBin, hlane.endBin, rfl, hlane.notes⟩
  · rw [searchLoop_short (by rw [hfilled, hsize]; omega)]
    refine ⟨(decide_eq_false fun ho => hk ho.1).symm, fun _ => h.next rfl rfl rfl rfl (fun s _ => rfl) ?_⟩
    have hread : ((looking t A).lane t).mReadPosInBlockCircularBuffer =
        (k + 1 + 2 - A0.mSizeBlockCircularBuffer) % A0.mSizeBlockCircularBuffer := by
      rw [hlane.read]
      congr 1
      omega
    exact ⟨hlane.bins, hlane.beginBin, hlane.endBin, hread, hlane.notes⟩

/-- The loop over the modes, from mode `t` on. -/
theorem Midway.searchModes (hn : 0 < A0.mSizeBlockCircularBuffer) : ∀ (modes : ℕ) {t : ℕ} {A : Analysis F},
    t + modes = lanes → Midway lanes A0 frames k t A →
    (searchModes modes t A).1 = firstOf (fun t => decide (OpensAt A0 frames (lag t) t k)) modes t ∧
      ((searchModes modes t A).1 = 0 → Midway lanes A0 frames k lanes (searchModes modes t A).2)
  | 0, t, A, ht, h => ⟨rfl, fun _ => by
      obtain rfl : t = lanes := ht
      exact h⟩
  | modes + 1, t, A, ht, h => by
    obtain ⟨hfound, hnext⟩ := h.searchMode (by omega) hn
    rcases hs : Analysis.searchMode t A with ⟨found, B⟩
    rw [hs] at hfound hnext
    cases found with
    | true =>
      have h1 : Analysis.searchModes (modes + 1) t A = (1 + (t : ℤ), B) := by simp [Analysis.searchModes, hs]
      rw [h1, firstOf, if_pos hfound.symm]
      exact ⟨rfl, fun h0 => by
        have h0 : 1 + (t : ℤ) = 0 := h0
        omega⟩
    | false =>
      have h1 : Analysis.searchModes (modes + 1) t A = Analysis.searchModes modes (t + 1) B := by
        simp [Analysis.searchModes, hs]
      have hclosed : ¬ decide (OpensAt A0 frames (lag t) t k) = true := by
        rw [← hfound]
        simp
      rw [h1, firstOf, if_neg hclosed]
      exact Midway.searchModes hn modes (by omega) (hnext rfl)

end Round

/-- The state after `k` frames without start tokens. -/
structure Searched (lanes : ℕ) (A0 : Analysis F) (frames : ℕ → ℕ → F) (k : ℕ) (A : Analysis F) : Prop where
  size : A.mSizeBlockCircularBuffer = A0.mSizeBlockCircularBuffer
  tolerance : A.mnToleranceFrames = A0.mnToleranceFrames
  spectral : A.mSpectralAnalysis = spectra frames A0.mSpectralAnalysis k
  write : A.mWritePosInBlockCircularBuffer = k % A0.mSizeBlockCircularBuffer
  lane : ∀ t < lanes, LaneAt A0 frames t k k (A.lane t)

theorem Fresh.searched {lanes : ℕ} {A0 : Analysis F} (h : Fresh lanes A0) (hn : 0 < A0.mSizeBlockCircularBuffer)
    (frames : ℕ → ℕ → F) : Searched lanes A0 frames 0 A0 := by
  refine ⟨rfl, rfl, rfl, by rw [h.write, Nat.zero_mod], fun t ht => ⟨rfl, rfl, rfl, ?_, fun q hle hlt => ?_⟩⟩
  · rw [h.read t ht]
    rcases Nat.lt_or_ge 1 A0.mSizeBlockCircularBuffer with h1 | h1
    · rw [show 0 + 2 - A0.mSizeBlockCircularBuffer = 0 by omega, Nat.zero_mod]
    · rw [show A0.mSizeBlockCircularBuffer = 1 by omega]
  · show Analysis.notes (A0.lane t) (q % A0.mSizeBlockCircularBuffer) = heard A0 frames t (q - lag t)
    rw [h.notes t ht _ (Nat.mod_lt q hn), heard, if_pos (by omega)]

/-- One frame of the search. -/
theorem Searched.step {lanes : ℕ} {A0 : Analysis F} {frames : ℕ → ℕ → F} {k : ℕ} {A : Analysis F} (hlanes : 0 < lanes)
    (hn : 0 < A0.mSizeBlockCircularBuffer) (h : Searched lanes A0 frames k A) :
    (AnalyzeStartTokens lanes (frames k) A).1 =
        firstOf (fun t => decide (OpensAt A0 frames (lag t) t k)) lanes 0 ∧
      ((AnalyzeStartTokens lanes (frames k) A).1 = 0 →
        Searched lanes A0 frames (k + 1) (AnalyzeStartTokens lanes (frames k) A).2) := by
  have hmid : Midway lanes A0 frames k 0 (storeSpectrum (frames k) A) :=
    ⟨h.size, h.tolerance, congrArg (SpectralAnalysis.doFFT · (frames k)) h.spectral, h.write,
      fun s hs => absurd hs (Nat.not_lt_zero s), fun s hs _ => h.lane s hs⟩
  obtain ⟨hret, hnext⟩ := hmid.searchModes hn lanes (Nat.zero_add lanes)
  refine ⟨hret, fun h0 => ?_⟩
  have hend := hnext h0
  have hw := hend.write
  rw [if_neg (by omega)] at hw
  exact ⟨hend.size, hend.tolerance, hend.spectral, hw, fun t ht => hend.noted t ht⟩

section Reports

variable {lanes : ℕ} {A0 : Analysis F} {frames : ℕ → ℕ → F}

theorem feed_searched (hlanes : 0 < lanes) (hn : 0 < A0.mSizeBlockCircularBuffer) (h : Fresh lanes A0) :
    ∀ {k : ℕ}, (∀ j < k, report lanes frames A0 j = 0) → Searched lanes A0 frames k (feed lanes frames A0 k)
  | 0, _ => h.searched hn frames
  | k + 1, hquiet => ((feed_searched hlanes hn h fun j hj => hquiet j (by omega)).step hlanes hn).2
    (hquiet k (by omega))

/-- As long as nothing was reported, a frame is reported for the lowest mode whose window holds the start tokens. -/
theorem report_eq (hlanes : 0 < lanes) (hn : 0 < A0.mSizeBlockCircularBuffer) (h : Fresh lanes A0) {k : ℕ}
    (hquiet : ∀ j < k, report lanes frames A0 j = 0) :
    report lanes frames A0 k = firstOf (fun t => decide (OpensAt A0 frames (lag t) t k)) lanes 0 :=
  ((feed_searched hlanes hn h hquiet).step hlanes hn).1

/-- No frame is reported before the window is full. -/
theorem report_short (hlanes : 0 < lanes) (hn : 0 < A0.mSizeBlockCircularBuffer)
    (h : Fresh lanes A0) : ∀ k, k + 1 < A0.mSizeBlockCircularBuffer → ∀ j < k, report lanes frames A0 j = 0
  | 0, _, j, hj => absurd hj (Nat.not_lt_zero j)
  | k + 1, hk, j, hj => by
    have hquiet := report_short hlanes hn h k (by omega)
    rcases Nat.lt_succ_iff_lt_or_eq.1 hj with hlt | rfl
    · exact hquiet j hlt
    · rw [report_eq hlanes hn h hquiet, firstOf_eq_zero]
      refine fun t _ => decide_eq_false fun hopens => ?_
      have hfull := hopens.1
      omega

/-- As long as nothing is reported, the analysis goes on with the search. -/
theorem run_feed {c : DecoderClass} {g : Globals F} {C0 : Core F} (hc : c.isMultiTone = true)
    (h0 : C0.mDecoding = 0) : ∀ k,
    (∀ j < k, report c.lanes frames C0.analysis j = 0) →
    Run (Core.move c) C0 ((List.range k).map fun j => (.frame g (frames j), none))
      { C0 with analysis := feed c.lanes frames C0.analysis k }
  | 0, _ => .nil
  | k + 1, hquiet => by
    have hstep : Core.step c g (frames k) { C0 with analysis := feed c.lanes frames C0.analysis k } =
        (none, { C0 with analysis := feed c.lanes frames C0.analysis (k + 1) }) := by
      have hret : (AnalyzeStartTokens c.lanes (frames k) (feed c.lanes frames C0.analysis k)).1 = 0 :=
        hquiet k (by omega)
      have hnot : Core.isStart c 0 = false := by cases c <;> rfl
      unfold Core.step
      rw [if_pos h0, Core.AnalyzeStartTokens_multiTone hc]
      simp only [hret, hnot, Bool.false_eq_true, if_false]
      rfl
    rw [List.range_succ, List.map_append, List.map_singleton]
    exact .call (run_feed hc h0 k fun j hj => hquiet j (by omega)) (congrArg some hstep)

omit [CFFTOoura F] in
/-- On a ring without cells the loop of the search is never entered. -/
theorem searchModes_empty : ∀ (modes t : ℕ) {A : Analysis F}, A.mSizeBlockCircularBuffer = 0 →
    (searchModes modes t A).1 = 0 ∧ (searchModes modes t A).2.mSizeBlockCircularBuffer = 0
  | 0, _, _, h => ⟨rfl, h⟩
  | modes + 1, t, A, h => by
    have hsize : (looking t A).mSizeBlockCircularBuffer = 0 := by rw [looking_size, h]
    have hmode : searchMode t A = (false, looking t A) := by
      rw [searchMode_eq, hsize]
      rfl
    have hnext : searchModes (modes + 1) t A = searchModes modes (t + 1) (looking t A) := by
      simp [searchModes, hmode]
    rw [hnext]
    exact searchModes_empty modes (t + 1) hsize

theorem report_empty (h : A0.mSizeBlockCircularBuffer = 0) (k : ℕ) : report lanes frames A0 k = 0 := by
  have hfeed : ∀ k, (feed lanes frames A0 k).mSizeBlockCircularBuffer = 0 := fun k => by
    induction k with
    | zero => exact h
    | succ k ih => exact (searchModes_empty (A := storeSpectrum (frames k) (feed lanes frames A0 k)) lanes 0 ih).2
  exact (searchModes_empty (A := storeSpectrum (frames k) (feed lanes frames A0 k)) lanes 0 (hfeed k)).1

end Reports

/-! ## Two decoders -/

/-- Up to and including the first detection, the reports of the decoder of all modes are those of the dedicated
decoders: mode `t` where the dedicated decoder of mode `t` reports, the lowest one where several do. -/
def Agrees (all : ℕ → ℤ) (single : ℕ → ℕ → ℤ) (frameCount : ℕ) : Prop :=
  ∀ k < frameCount, (∀ j < k, all j = 0 ∧ ∀ t < 3, single t j = 0) →
    all k = firstOf (fun t => decide (single t k = 1)) 3 0

/-- At the first frame with which some mode holds the start tokens, in either order of its notes, the lowest such mode
is the audible one, or holds them in both orders. -/
def SameOpening (A0 : Analysis F) (frames : ℕ → ℕ → F) (frameCount : ℕ) : Prop :=
  ∀ k < frameCount, ∀ t < 3, t ≠ 0 →
    (∀ j, ∀ s < 3, j < k ∨ j = k ∧ s < t → ¬ OpensAt A0 frames 0 s j ∧ ¬ OpensAt A0 frames (lag s) s j) →
    (OpensAt A0 frames 0 t k ↔ OpensAt A0 frames (lag t) t k)

/-- The single-mode decoder of a mode. -/
def dedicated : ℕ → DecoderClass
  | 0 => .AudibleMultiTone
  | 1 => .NonAudibleMultiTone
  | _ => .CompressionMultiTone

theorem dedicated_multiTone : ∀ t, (dedicated t).isMultiTone = true
  | 0 | 1 | _ + 2 => rfl

theorem dedicated_lanes : ∀ t, (dedicated t).lanes = 1
  | 0 | 1 | _ + 2 => rfl

omit [CFFTOoura F] in
theorem laneFreq_dedicated (g : Globals F) :
    ∀ t, Decoder.laneFreq (dedicated t) g 0 = Decoder.laneFreq .AllMultiTone g t
  | 0 | 1 | _ + 2 => rfl

/-- The analysis of a new decoder of class `c`, which transforms its frames in the memory `S`. -/
def fresh (mem : DecoderClass → Analysis F) (S : SpectralAnalysis F) (g : Globals F) (samplingRate : F)
    (windowSize : ℕ) (c : DecoderClass) : Analysis F :=
  Decoder.newAnalysis { mem c with mSpectralAnalysis := S } c (g.init windowSize) samplingRate windowSize

section New

variable (mem : DecoderClass → Analysis F) (S : SpectralAnalysis F) (g : Globals F) (samplingRate : F) (windowSize : ℕ)

omit [CFFTOoura F] in
theorem fresh_fresh (c : DecoderClass) : Fresh c.lanes (fresh mem S g samplingRate windowSize c) := by
  refine ⟨rfl, fun t ht => ?_, fun t ht pos hpos => ?_⟩
  · simp only [fresh, Decoder.newAnalysis, if_pos ht, Decoder.newLane]
  · simp only [fresh, Decoder.newAnalysis] at hpos
    simp only [fresh, Decoder.newAnalysis, if_pos ht, Decoder.newLane, notes, if_pos hpos]

omit [CFFTOoura F] in
theorem fresh_lane {c : DecoderClass} (hc : c.isMultiTone = true) {t : ℕ} (ht : t < c.lanes) :
    (∀ i < mNumTones, ((fresh mem S g samplingRate windowSize c).lane t).mFreqsBins i =
        Globals.round (Decoder.laneFreq c (g.init windowSize) t i samplingRate windowSize *
          (ofInt windowSize / samplingRate))) ∧
      ((fresh mem S g samplingRate windowSize c).lane t).mBeginBin =
        Globals.round (Decoder.laneFreq c (g.init windowSize) t 0 samplingRate windowSize *
          (ofInt windowSize / samplingRate)) ∧
      ((fresh mem S g samplingRate windowSize c).lane t).mEndBin =
        Globals.round (Decoder.laneFreq c (g.init windowSize) t (mNumTones - 1 : ℤ) samplingRate windowSize *
          (ofInt windowSize / samplingRate)) := by
  exact Decoder.newAnalysis_bins _ hc _ samplingRate windowSize ht

/-- The dedicated decoder of a mode sees its notes with the oldest one at the end. -/
theorem opensAt_dedicated {t : ℕ} (ht : t < 3) (frames : ℕ → ℕ → F) (k : ℕ) :
    OpensAt (fresh mem S g samplingRate windowSize (dedicated t)) frames 0 0 k ↔
      OpensAt (fresh mem S g samplingRate windowSize .AllMultiTone) frames 0 t k := by
  have hfreq := laneFreq_dedicated (g.init windowSize) t
  obtain ⟨hbins, hbegin, hend⟩ := fresh_lane mem S g samplingRate windowSize (dedicated_multiTone t)
    (show 0 < (dedicated t).lanes by rw [dedicated_lanes]; decide)
  obtain ⟨hbins', hbegin', hend'⟩ :=
    fresh_lane mem S g samplingRate windowSize (c := .AllMultiTone) rfl (show t < 3 from ht)
  have htones : ∀ mSpecMag, startTones ((fresh mem S g samplingRate windowSize (dedicated t)).lane 0) mSpecMag =
      startTones ((fresh mem S g samplingRate windowSize .AllMultiTone).lane t) mSpecMag :=
    startTones_congr (fun i hi => by rw [hbins i hi, hbins' i hi, hfreq]) (by rw [hbegin, hbegin', hfreq])
      (by rw [hend, hend', hfreq])
  have hheard : ∀ q, heard (fresh mem S g samplingRate windowSize (dedicated t)) frames 0 q =
      heard (fresh mem S g samplingRate windowSize .AllMultiTone) frames t q := fun q => by
    simp only [heard, htones]
    rfl
  unfold OpensAt
  simp only [hheard]
  exact Iff.rfl

/-- What the dedicated decoder of a mode reports, as long as it has reported nothing. -/
theorem report_dedicated {t : ℕ} (ht : t < 3) (frames : ℕ → ℕ → F)
    (hn : 0 < (fresh mem S g samplingRate windowSize .AllMultiTone).mSizeBlockCircularBuffer) {k : ℕ}
    (hquiet : ∀ j < k, report 1 frames (fresh mem S g samplingRate windowSize (dedicated t)) j = 0) :
    report 1 frames (fresh mem S g samplingRate windowSize (dedicated t)) k =
      if OpensAt (fresh mem S g samplingRate windowSize .AllMultiTone) frames 0 t k then 1 else 0 := by
  have hfresh := fresh_fresh mem S g samplingRate windowSize (dedicated t)
  rw [dedicated_lanes] at hfresh
  have hsize : 0 < (fresh mem S g samplingRate windowSize (dedicated t)).mSizeBlockCircularBuffer := hn
  have hiff := opensAt_dedicated mem S g samplingRate windowSize ht frames k
  rw [report_eq (by decide) hsize hfresh hquiet, firstOf, firstOf, show lag 0 = 0 from rfl]
  by_cases ho : OpensAt (fresh mem S g samplingRate windowSize .AllMultiTone) frames 0 t k
  · rw [if_pos ho, if_pos (decide_eq_true (hiff.2 ho))]
    rfl
  · rw [if_neg ho, if_neg (by simpa using fun h => ho (hiff.1 h))]

/-- No decoder has reported anything exactly when no mode has held the start tokens in either order. -/
theorem quiet_iff (frames : ℕ → ℕ → F)
    (hn : 0 < (fresh mem S g samplingRate windowSize .AllMultiTone).mSizeBlockCircularBuffer) : ∀ k,
    (∀ j < k, report 3 frames (fresh mem S g samplingRate windowSize .AllMultiTone) j = 0 ∧
        ∀ t < 3, report 1 frames (fresh mem S g samplingRate windowSize (dedicated t)) j = 0) ↔
      ∀ j < k, ∀ t < 3, ¬ OpensAt (fresh mem S g samplingRate windowSize .AllMultiTone) frames 0 t j ∧
        ¬ OpensAt (fresh mem S g samplingRate windowSize .AllMultiTone) frames (lag t) t j := by
  intro k
  have hfresh : Fresh 3 (fresh mem S g samplingRate windowSize .AllMultiTone) :=
    fresh_fresh mem S g samplingRate windowSize .AllMultiTone
  induction k with
  | zero => exact iff_of_true (fun j hj => absurd hj (Nat.not_lt_zero j)) fun j hj => absurd hj (Nat.not_lt_zero j)
  | succ k ih =>
    refine Nat.forall_lt_succ_right.trans
      (((and_congr_right fun hquiet => ?_).trans (and_congr_left' ih)).trans Nat.forall_lt_succ_right.symm)
    rw [report_eq (by decide) hn hfresh fun j hj => (hquiet j hj).1, firstOf_eq_zero]
    have hsingle : ∀ t < 3, report 1 frames (fresh mem S g samplingRate windowSize (dedicated t)) k = 0 ↔
        ¬ OpensAt (fresh mem S g samplingRate windowSize .AllMultiTone) frames 0 t k := fun t ht => by
      rw [report_dedicated mem S g samplingRate windowSize ht frames hn fun j hj => (hquiet j hj).2 t ht]
      simp
    constructor
    · intro h t ht
      exact ⟨(hsingle t ht).1 (h.2 t ht), of_decide_eq_false (h.1 t ht)⟩
    · intro h
      exact ⟨fun t ht => decide_eq_false (h t ht).2, fun t ht => (hsingle t ht).2 (h t ht).1⟩

/-- A frame before which nothing was reported: the reports agree exactly when the two orders make no difference for
the lowest mode that holds the start tokens in one of them. -/
theorem frame_agrees_iff (frames : ℕ → ℕ → F)
    (hn : 0 < (fresh mem S g samplingRate windowSize .AllMultiTone).mSizeBlockCircularBuffer) {k : ℕ}
    (hquiet : ∀ j < k, report 3 frames (fresh mem S g samplingRate windowSize .AllMultiTone) j = 0 ∧
      ∀ t < 3, report 1 frames (fresh mem S g samplingRate windowSize (dedicated t)) j = 0) :
    report 3 frames (fresh mem S g samplingRate windowSize .AllMultiTone) k = firstOf (fun t => decide
        (report 1 frames (fresh mem S g samplingRate windowSize (dedicated t)) k = 1)) 3 0 ↔
      ∀ t < 3, (∀ s < t, ¬ OpensAt (fresh mem S g samplingRate windowSize .AllMultiTone) frames 0 s k ∧
          ¬ OpensAt (fresh mem S g samplingRate windowSize .AllMultiTone) frames (lag s) s k) →
        (OpensAt (fresh mem S g samplingRate windowSize .AllMultiTone) frames 0 t k ↔
          OpensAt (fresh mem S g samplingRate windowSize .AllMultiTone) frames (lag t) t k) := by
  have hfresh : Fresh 3 (fresh mem S g samplingRate windowSize .AllMultiTone) :=
    fresh_fresh mem S g samplingRate windowSize .AllMultiTone
  have hsingle : ∀ t < 3, decide (report 1 frames (fresh mem S g samplingRate windowSize (dedicated t)) k = 1) =
      decide (OpensAt (fresh mem S g samplingRate windowSize .AllMultiTone) frames 0 t k) := fun t ht => by
    rw [report_dedicated mem S g samplingRate windowSize ht frames hn fun j hj => (hquiet j hj).2 t ht]
    by_cases ho : OpensAt (fresh mem S g samplingRate windowSize .AllMultiTone) frames 0 t k
    · rw [if_pos ho, decide_eq_true ho]
      rfl
    · rw [if_neg ho, decide_eq_false ho]
      rfl
  rw [report_eq (by decide) hn hfresh fun j hj => (hquiet j hj).1, firstOf_eq_iff]
  constructor
  · intro h t ht hlower
    have heq := h t (Nat.zero_le t) (by omega) fun s _ hs =>
      ⟨decide_eq_false (hlower s hs).2, (hsingle s (by omega)).trans (decide_eq_false (hlower s hs).1)⟩
    rw [hsingle t ht] at heq
    exact (decide_eq_decide.1 heq).symm
  · intro h t _ ht hlower
    rw [hsingle t (by omega)]
    refine decide_eq_decide.2 (h t (by omega) fun s hs => ?_).symm
    obtain ⟨h1, h2⟩ := hlower s (Nat.zero_le s) hs
    rw [hsingle s (by omega)] at h2
    exact ⟨of_decide_eq_false h2, of_decide_eq_false h1⟩

/-- The decoder of all modes agrees with the dedicated decoders, for any number of frames, exactly when the order of
the notes makes no difference where the start tokens are first heard. -/
theorem allModes_agree_iff (frames : ℕ → ℕ → F) (frameCount : ℕ) :
    Agrees (report 3 frames (fresh mem S g samplingRate windowSize .AllMultiTone))
        (fun t => report 1 frames (fresh mem S g samplingRate windowSize (dedicated t))) frameCount ↔
      SameOpening (fresh mem S g samplingRate windowSize .AllMultiTone) frames frameCount := by
  rcases Nat.eq_zero_or_pos (fresh mem S g samplingRate windowSize .AllMultiTone).mSizeBlockCircularBuffer with hn | hn
  · refine iff_of_true (fun k _ _ => ?_) fun k _ t _ _ _ => ?_
    · have hsingle : ∀ t, (fresh mem S g samplingRate windowSize (dedicated t)).mSizeBlockCircularBuffer = 0 :=
        fun _ => hn
      rw [report_empty hn, eq_comm, firstOf_eq_zero]
      exact fun t _ => decide_eq_false (ne_of_eq_of_ne (report_empty (hsingle t) k) (by decide))
    · unfold OpensAt
      rw [hn]
      exact and_congr_right fun _ => Opens.congr fun i hi => absurd hi (Nat.not_lt_zero i)
  · refine forall_congr' fun k => imp_congr_right fun _ => ?_
    have hquiet := quiet_iff mem S g samplingRate windowSize frames hn k
    constructor
    · intro h t ht _ hnone
      have hq := hquiet.2 fun j hj s hs => hnone j s hs (Or.inl hj)
      exact (frame_agrees_iff mem S g samplingRate windowSize frames hn hq).1 (h hq) t ht fun s hs =>
        hnone k s (by omega) (Or.inr ⟨rfl, hs⟩)
    · intro h hq
      refine (frame_agrees_iff mem S g samplingRate windowSize frames hn hq).2 fun t ht hlower => ?_
      by_cases h0 : t = 0
      · subst h0
        exact Iff.rfl
      · refine h t ht h0 fun j s hs hj => ?_
        rcases hj with hj | ⟨rfl, hst⟩
        · exact hquiet.1 hq j hj s hs
        · exact hlower s hst

end New

/-! ## A sound that is found late -/

section Exact

/-- The order in which the search puts the tones of a spectrum is that of the magnitudes around their bins. -/
theorem startTones_eq {L : Lane ℝ} {bin : ℕ → ℕ} (hbins : ∀ i < 9, L.mFreqsBins i = bin i)
    (hbin : ∀ i < 9, 2 ≤ bin i ∧ bin i + 1 < 1024) (hbegin : L.mBeginBin = bin 0) (hend : L.mEndBin = bin 8)
    (hle : bin 0 ≤ bin 8) {mag : ℕ → ℝ} (hpos : ∀ m, 1 ≤ m → m < 1024 → 0 < mag m) {rank : ℕ → ℕ}
    (horder : ∀ i < 9, ∀ j < 9, around mag (bin i) < around mag (bin j) ↔ rank i < rank j) :
    startTones L mag = (((sorted rank 0 : ℕ) : ℤ), ((sorted rank 1 : ℕ) : ℤ)) := by
  obtain ⟨h02, h01⟩ := hbin 0 (by decide)
  obtain ⟨h82, h81⟩ := hbin 8 (by decide)
  have haround : ∀ i < 9, 0 < around mag (bin i) := fun i hi => by
    obtain ⟨h2, h1⟩ := hbin i hi
    have hbefore := hpos (bin i - 1) (by omega) (by omega)
    have hat := hpos (bin i) (by omega) (by omega)
    have hafter := hpos (bin i + 1) (by omega) h1
    unfold around
    positivity
  have henergy : (0 : ℝ) < forUp 0 (L.mEndBin - L.mBeginBin + 1).toNat (fun i energyBlock =>
      energyBlock + cell mag (L.mBeginBin + i)) (Floats.lit 0) / ofInt (L.mEndBin - L.mBeginBin + 1) := by
    rw [hbegin, hend, ofInt_eq, lit_eq]
    refine div_pos (forUp_add_pos (by omega) (fun i hi => hpos _ ?_ ?_) (by norm_num)) ?_
    · omega
    · omega
    · have : (0 : ℤ) < bin 8 - bin 0 + 1 := by omega
      exact_mod_cast this
  have hratio : ∀ i < 9, startRatio L mag i = 20 * Real.logb 10 (around mag (bin i) / 3 /
      (forUp 0 (L.mEndBin - L.mBeginBin + 1).toNat (fun i energyBlock =>
        energyBlock + cell mag (L.mBeginBin + i)) (Floats.lit 0) / ofInt (L.mEndBin - L.mBeginBin + 1))) :=
          fun i hi => by
    have hsum := sum_three mag (show 1 ≤ bin i from le_trans (by decide) (hbin i hi).1)
    simp only [startRatio, hbins i hi, hsum]
    show ((20 : ℚ) : ℝ) * Real.logb 10 (around _ _ / ((3 : ℚ) : ℝ) / _) = _
    norm_num
    rfl
  refine startTones_rank fun i hi j hj => ?_
  rw [hratio i hi, hratio j hj]
  exact decide_eq_decide.2 ((decibels_lt (haround i hi) (haround j hj) henergy).trans (horder i hi j hj))

/-- The bins of tone `i` of the audible and of the non-audible mode at 44100 Hz. -/
def startBin (t i : ℕ) : ℕ := if t = 0 then 153 + 35 * i else 827 + 12 * i

/-- A sound of two pulses in every 2048 samples whose very first pulse comes two samples late. -/
noncomputable def lateChord (n : ℕ) : ℝ := if n < 256 then pulse 3 n else chord 265 n

/-- The frames of the sound. -/
noncomputable def lateFrames : ℕ → ℕ → ℝ := FrameBuffer.window 2048 256 (fun _ => 0) lateChord

/-- The distance of the pulses in frame `k`. -/
def lateDistance (k : ℕ) : ℕ := if k = 0 then 263 else 265

theorem lateFrames_energy {S : SpectralAnalysis ℝ} (hmode : S.mode = .kEnergySpectrum) (hsize : S.mFftSize = 2048)
    (hwindow : ∀ i, 1 ≤ i → i < 2048 → 0 < S.mWindow i) (k : ℕ) :
    ∃ u v : ℝ, 0 < u ∧ 0 < v ∧ ∀ m, 1 ≤ m → m < 1024 →
      (S.doFFT (lateFrames k)).mSpecMag m = u ^ 2 + v ^ 2 + 2 * u * v * Real.cos (turn (lateDistance k * m)) := by
  have hpos : ∀ r c, r % 256 ≠ 0 → c % 256 = 0 → 0 < S.mWindow (pulsePos r c) := fun r c hr hc =>
    hwindow _ (by unfold pulsePos; omega) (Nat.mod_lt _ (by decide))
  by_cases hk : k = 0
  · subst hk
    refine ⟨_, _, hpos 3 0 (by decide) rfl, hpos 266 0 (by decide) rfl, fun m h1 hm => ?_⟩
    have hframe : ∀ j < 2048, lateFrames 0 j = pulse 3 (0 + j) + pulse 266 (0 + j) := fun j hj => by
      rw [lateFrames, FrameBuffer.window, if_pos hj, Nat.zero_mul, Nat.zero_add, lateChord]
      by_cases hlow : j < 256
      · rw [if_pos hlow, pulse, pulse, if_neg (by omega : ¬ j % 2048 = 266), add_zero]
      · rw [if_neg hlow, chord, pulse, pulse, pulse, if_neg (by omega : ¬ j % 2048 = 1),
          if_neg (by omega : ¬ j % 2048 = 3)]
    have hangle : 2 * Real.pi * (pulsePos 266 0 : ℕ) * m / (2048 : ℕ) -
        2 * Real.pi * (pulsePos 3 0 : ℕ) * m / (2048 : ℕ) = turn (lateDistance 0 * m) := by
      have h266 : pulsePos 266 0 = 266 := rfl
      have h3 : pulsePos 3 0 = 3 := rfl
      have hd : lateDistance 0 = 263 := rfl
      rw [h266, h3, hd, turn]
      push_cast
      ring
    rw [pulses_frame_energy hmode hsize (by decide) (by decide) 0 hframe h1 hm, hangle]
  · refine ⟨_, _, hpos 1 (k * 256) (by decide) (by omega), hpos 266 (k * 256) (by decide) (by omega), fun m h1 hm => ?_⟩
    have hframe : lateFrames k = FrameBuffer.window 2048 256 (fun _ => 0) (chord 265) k := by
      funext j
      unfold lateFrames FrameBuffer.window
      by_cases hj : j < 2048
      · rw [if_pos hj, if_pos hj, lateChord, if_neg (by omega)]
      · rw [if_neg hj, if_neg hj]
    rw [hframe, chord_energy hmode hsize (by decide) _ k h1 hm, lateDistance, if_neg hk]

/-- The decoder of all modes at 44100 Hz before its first frame. -/
noncomputable def allModes : Analysis ℝ := fresh (fun _ => default) default initial 44100 2048 .AllMultiTone

theorem allModes_size : allModes.mSizeBlockCircularBuffer = 36 := Decoder.audible_size

theorem allModes_tolerance : allModes.mnToleranceFrames = 1 := Decoder.audible_settings.tolerance

theorem spectra_settings (frames : ℕ → ℕ → ℝ) (k : ℕ) :
    (spectra frames allModes.mSpectralAnalysis k).mode = .kEnergySpectrum ∧
      (spectra frames allModes.mSpectralAnalysis k).mFftSize = 2048 ∧
      ∀ i, 1 ≤ i → i < 2048 → 0 < (spectra frames allModes.mSpectralAnalysis k).mWindow i := by
  induction k with
  | zero => exact ⟨rfl, rfl, fun i h1 hi => window_pos _ h1 hi⟩
  | succ k ih => exact ih

/-- The grid of the non-audible mode at 44100 Hz. -/
theorem round_nonAudible (idx : ℕ) :
    Globals.round (getToneFromIdxNonAudibleMultiTone (initial.init 2048) idx (44100 : ℝ) 2048 *
      (ofInt (2048 : ℕ) / 44100)) = startBin 1 idx := by
  have hfirst : Globals.round ((Floats.lit 17800 : ℝ) / (44100 / (2048 : ℕ))) = (827 : ℕ) := by
    refine truncate_eq ?_ ?_
    · show ((827 : ℕ) : ℝ) ≤ ((17800 : ℚ) : ℝ) / (44100 / (2048 : ℕ)) + ((1 / 2 : ℚ) : ℝ)
      norm_num
    · show ((17800 : ℚ) : ℝ) / (44100 / (2048 : ℕ)) + ((1 / 2 : ℚ) : ℝ) < ((827 : ℕ) : ℝ) + 1
      norm_num
  have hoffset : (initial.init 2048 : Globals ℝ).freqOffsetForNonAudibleMultiTone * Floats.lit 3 =
      3 * (4 / (2048 / 44100)) := by
    simp only [Globals.init, ofInt_eq, lit_eq]
    norm_num
  have hdistance : Globals.round ((initial.init 2048 : Globals ℝ).freqOffsetForNonAudibleMultiTone * Floats.lit 3 /
      (44100 / (2048 : ℕ))) = (12 : ℕ) := by
    rw [hoffset]
    refine truncate_eq ?_ ?_
    · show ((12 : ℕ) : ℝ) ≤ 3 * (4 / (2048 / 44100)) / (44100 / (2048 : ℕ)) + ((1 / 2 : ℚ) : ℝ)
      norm_num
    · show 3 * (4 / (2048 / 44100)) / (44100 / (2048 : ℕ)) + ((1 / 2 : ℚ) : ℝ) < ((12 : ℕ) : ℝ) + 1
      norm_num
  have hbin := round_toneGrid (Floats.lit 17800) ((initial.init 2048).freqOffsetForNonAudibleMultiTone * Floats.lit 3)
    idx (show (0 : ℝ) < 44100 by norm_num) (show 0 < 2048 by decide) rfl
  rw [hfirst, hdistance, if_pos (by positivity)] at hbin
  refine hbin.trans ?_
  unfold startBin
  push_cast
  ring

/-- What is heard of the sound in the audible and the non-audible mode. -/
def lateHeard (t q : ℕ) : ℤ × ℤ :=
  let idx := sorted fun i => 1024 - fold (lateDistance (q - 36) * startBin t i)
  if q < 36 then (-1, -1) else (idx 0, idx 1)

theorem late_heard {t : ℕ} (ht : t < 2) (q : ℕ) : heard allModes lateFrames t q = lateHeard t q := by
  unfold heard lateHeard
  rw [allModes_size]
  by_cases hq : q < 36
  · rw [if_pos hq, if_pos hq]
  · rw [if_neg hq, if_neg hq]
    obtain ⟨hmode, hsize, hwindow⟩ := spectra_settings lateFrames (q - 36)
    obtain ⟨u, v, hu, hv, hmag⟩ := lateFrames_energy hmode hsize hwindow (q - 36)
    obtain ⟨hbins, hbegin, hend⟩ := fresh_lane (fun _ => default) default (initial : Globals ℝ) 44100 2048
      (c := .AllMultiTone) rfl (show t < 3 by omega)
    have hround : ∀ i : ℕ,
        Globals.round (Decoder.laneFreq .AllMultiTone ((initial : Globals ℝ).init 2048) t i 44100 2048 *
        (ofInt (2048 : ℕ) / 44100)) = startBin t i := fun i => by
      obtain rfl | rfl : t = 0 ∨ t = 1 := by omega
      · exact Decoder.round_audible i
      · exact round_nonAudible i
    have hbin : ∀ i < 9, 2 ≤ startBin t i ∧ startBin t i + 1 < 1024 := fun i hi => by
      unfold startBin
      split <;> omega
    have hd : lateDistance (q - 36) < 512 ∧ lateDistance (q - 36) % 2 = 1 := by
      unfold lateDistance
      split <;> decide
    refine startTones_eq (fun i hi => (hbins i hi).trans (hround i)) hbin (hbegin.trans (hround 0))
      (hend.trans (hround 8)) (by unfold startBin; split <;> omega)
      (fun m h1 hm => cosine_pos hd.2 hu hv hmag h1 hm) fun i hi j hj => ?_
    exact cosine_around_lt hd.1 hu hv hmag (hbin i hi).1 (hbin i hi).2 (hbin j hj).1 (hbin j hj).2

/-- The dedicated decoder of the non-audible mode finds the start tokens with frame 34, and the decoder of all modes
does not. -/
theorem allModes_late :
    ¬ Agrees (report 3 lateFrames (fresh (fun _ => default) default initial 44100 2048 .AllMultiTone))
      (fun t => report 1 lateFrames (fresh (fun _ => default) default initial 44100 2048 (dedicated t))) 35 := by
  intro hagrees
  have hn : 0 < allModes.mSizeBlockCircularBuffer := by
    rw [allModes_size]
    decide
  have hshort : ∀ l t j, j < 34 → ¬ OpensAt allModes lateFrames l t j := fun l t j hj ho => by
    have h36 : allModes.mSizeBlockCircularBuffer ≤ j + 2 := ho.1
    rw [allModes_size] at h36
    omega
  have hquiet := (quiet_iff (fun _ => default) default initial 44100 2048 lateFrames hn 34).2 fun j hj t _ =>
    ⟨hshort _ _ j hj, hshort _ _ j hj⟩
  have hwindow : ∀ l t, t < 2 → (OpensAt allModes lateFrames l t 34 ↔
      Opens 36 1 fun i => lateHeard t (34 + 1 + (i + 1 - l) % 36)) := fun l t ht => by
    unfold OpensAt
    rw [allModes_size, allModes_tolerance]
    simp only [late_heard ht]
    exact and_iff_right (by decide)
  have hsame := (frame_agrees_iff (fun _ => default) default initial 44100 2048 lateFrames hn hquiet).1
    (hagrees 34 (by decide) hquiet) 1 (by decide) fun s hs => by
      obtain rfl : s = 0 := by omega
      have h0 : ¬ OpensAt allModes lateFrames 0 0 34 := by
        rw [hwindow 0 0 (by decide)]
        decide +kernel
      exact ⟨h0, h0⟩
  have h1 : OpensAt allModes lateFrames 0 1 34 := (hwindow 0 1 (by decide)).2 (by decide +kernel)
  have h2 := (hwindow 1 1 (by decide)).1 (hsame.1 h1)
  exact absurd h2 (by decide +kernel)

end Exact

end Analysis

end Undertone
