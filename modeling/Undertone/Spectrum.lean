import Undertone.Decoder.Block
import Undertone.Decoder.Checked
import Undertone.Hopping

/-!
# Where the spectrum is read

`ComputeStatsStartTokens` and `ComputeStats` read the spectrum from the bin of the first tone to that of the last one,
and one bin on each side of every tone (`ComputeStatsStartTokens_isSome`, `ComputeStats_isSome`). No bin is compared
with the length of the spectrum: at which sampling rates, and with which base frequencies and separations, all of them
are inside is a matter of the first and the last tone (`spectrum_reads_iff`).
-/

namespace Undertone

open CountedLoop BoundedArray Globals

namespace Checked

variable {F D : Type} [Doubles D] [Floats F D] [CFFTOoura F]

/-! ## The bins -/

/-- The bins read for tones at the bins `toneBin`. -/
def ReadBin (L : Lane F) (toneBin : ℕ → ℤ) (bin : ℤ) : Prop :=
  L.mBeginBin ≤ bin ∧ bin ≤ L.mEndBin ∨
    ∃ i < Analysis.mNumTones, toneBin i - Analysis.mBinWidth ≤ bin ∧ bin ≤ toneBin i + Analysis.mBinWidth

/-- All of them are bins of the spectrum. -/
def InSpectrum (specSize : ℕ) (L : Lane F) (toneBin : ℕ → ℤ) : Prop :=
  ∀ bin, ReadBin L toneBin bin → 0 ≤ bin ∧ bin < specSize

omit [Doubles D] [Floats F D] [CFFTOoura F] in
theorem inSpectrum_iff {specSize : ℕ} {L : Lane F} {toneBin : ℕ → ℤ} : InSpectrum specSize L toneBin ↔
    (∀ bin, L.mBeginBin ≤ bin → bin ≤ L.mEndBin → 0 ≤ bin ∧ bin < specSize) ∧
      ∀ i < Analysis.mNumTones, 1 ≤ toneBin i ∧ toneBin i + 1 < specSize := by
  have hwidth : ((Analysis.mBinWidth : ℕ) : ℤ) = 1 := rfl
  constructor
  · intro h
    refine ⟨fun bin h1 h2 => h bin (Or.inl ⟨h1, h2⟩), fun i hi => ?_⟩
    have hlow := h (toneBin i - 1) (Or.inr ⟨i, hi, by omega, by omega⟩)
    have hhigh := h (toneBin i + 1) (Or.inr ⟨i, hi, by omega, by omega⟩)
    omega
  · rintro ⟨hregion, htones⟩ bin (⟨h1, h2⟩ | ⟨i, hi, h1, h2⟩)
    · exact hregion bin h1 h2
    · have := htones i hi
      omega

/-- All bins that are read on one lane, whatever the position of the token. -/
def LaneInSpectrum (specSize : ℕ) (g : Globals F) (mode : ℤ) (L : Lane F) : Prop :=
  InSpectrum specSize L L.mFreqsBins ∧ ∀ mDecoding, InSpectrum specSize L (Analysis.evalToneBin g mode mDecoding L)

/-- The mode that `ComputeStats` of the class is called with on lane `t`. -/
def laneMode (c : DecoderClass) (t : ℕ) : ℤ := if c = .AllMultiTone then t else c.mode

/-- Every bin that `ComputeStatsStartTokens` and `ComputeStats` read, on every lane and for every value of `mDecoding`,
is one of the spectrum. -/
def AllInSpectrum (c : DecoderClass) (g : Globals F) (A : Analysis F) : Prop :=
  ∀ t < c.lanes, LaneInSpectrum A.mSpectralAnalysis.mSpecSize g (laneMode c t) (A.lane t)

/-! ## Sums around a bin -/

section Sums

omit [Doubles D] [CFFTOoura F] in
theorem sum_eq {n size : ℕ} (h : size ≤ n) (data : ℕ → F) : sum n data size = some (Globals.sum data size) := by
  refine forUpM_rule (fun _ _ => True) trivial fun i s _ hi _ => ⟨?_, trivial⟩
  rw [get_cast (by omega)]
  rfl

variable {mSpecMag : ℤ → Option F} {evalToneBin : ℤ}

omit [Doubles D] [CFFTOoura F] in
theorem sumAround_eq {mags : ℕ → F} (h : ∀ n : ℕ, n < 3 → mSpecMag (evalToneBin - 1 + n) = some (mags n)) :
    sumAround mSpecMag evalToneBin = some (Floats.toDouble (Globals.sum mags 3)) := by
  have hloop : forUpM 0 Analysis.mSizeTokenBinAnal (fun n mags => do
      put Analysis.mSizeTokenBinAnal mags n (← mSpecMag (evalToneBin - Analysis.mBinWidth + n)))
        (fun _ => (Floats.lit 0 : F)) =
      some (forUp 0 3 (fun n a => Function.update a n (mags n)) fun _ => Floats.lit 0) := by
    refine forUpM_rule (fun _ _ => True) trivial fun n a _ hn _ => ⟨?_, trivial⟩
    rw [show ((Analysis.mBinWidth : ℕ) : ℤ) = 1 from rfl, h n hn]
    exact put_cast hn a _
  unfold sumAround
  rw [hloop, forUp_fill, Option.bind_eq_bind, Option.bind_some, sum_eq (le_refl _)]
  have hsum : Globals.sum (fun k => if 0 ≤ k ∧ k < 3 then mags k else Floats.lit 0) 3 = Globals.sum mags 3 := by
    refine forUp_congr (fun i s _ hi => ?_) _
    simp only [if_pos (And.intro (Nat.zero_le i) hi)]
  exact congrArg (fun s => some (Floats.toDouble s)) hsum

omit [Doubles D] [CFFTOoura F] in
/-- A sum that has an outcome has read its three bins. -/
theorem sumAround_inv {x : D} (h : sumAround mSpecMag evalToneBin = some x) {n : ℕ} (hn : n < 3) :
    ∃ mag, mSpecMag (evalToneBin - 1 + n) = some mag := by
  obtain ⟨mags, hloop, -⟩ := Option.bind_eq_some_iff.1 h
  obtain ⟨a, a', hround⟩ := forUpM_rounds hloop (Nat.zero_le n) hn
  obtain ⟨mag, hmag, -⟩ := Option.bind_eq_some_iff.1 hround
  exact ⟨mag, hmag⟩

omit [Doubles D] [CFFTOoura F] in
theorem sumAround_range {specSize : ℕ} (hread : ∀ bin mag, mSpecMag bin = some mag → 0 ≤ bin ∧ bin < specSize) {x : D}
    (h : sumAround mSpecMag evalToneBin = some x) : 1 ≤ evalToneBin ∧ evalToneBin + 1 < specSize := by
  obtain ⟨low, hlow⟩ := sumAround_inv h (show 0 < 3 by decide)
  obtain ⟨high, hhigh⟩ := sumAround_inv h (show 2 < 3 by decide)
  have h0 := hread _ _ hlow
  have h2 := hread _ _ hhigh
  omega

end Sums

/-! ## The two functions -/

section Stats

variable {lanes t : ℕ} {A : Analysis F}

omit [CFFTOoura F] in
theorem ComputeStatsStartTokens_eq (ht : t < lanes)
    (h : InSpectrum A.mSpectralAnalysis.mSpecSize (A.lane t) (A.lane t).mFreqsBins) :
    ComputeStatsStartTokens lanes t A = some (A.ComputeStatsStartTokens t) := by
  obtain ⟨hregion, htones⟩ := inSpectrum_iff.1 h
  unfold ComputeStatsStartTokens
  rw [get_cast ht]
  simp only [Option.bind_eq_bind, Option.bind_some]
  have hblock : forUpM 0 ((A.lane t).mEndBin - (A.lane t).mBeginBin + 1).toNat (fun i energyBlock =>
      (get A.mSpectralAnalysis.mSpecSize A.mSpectralAnalysis.mSpecMag ((A.lane t).mBeginBin + i)).bind fun mag =>
        some (energyBlock + mag)) (Floats.lit 0) =
      some (forUp 0 ((A.lane t).mEndBin - (A.lane t).mBeginBin + 1).toNat (fun i energyBlock =>
        energyBlock + cell A.mSpectralAnalysis.mSpecMag ((A.lane t).mBeginBin + i)) (Floats.lit 0 : F)) := by
    refine forUpM_rule (fun _ _ => True) trivial fun i e _ hi _ => ⟨?_, trivial⟩
    obtain ⟨h0, h1⟩ := hregion ((A.lane t).mBeginBin + i) (by omega) (by omega)
    rw [get_eq h0 h1]
    rfl
  refine (congrArg (Option.bind · _) hblock).trans ?_
  rw [Option.bind_some]
  set energyBlock : F := forUp 0 ((A.lane t).mEndBin - (A.lane t).mBeginBin + 1).toNat (fun i energyBlock =>
    energyBlock + cell A.mSpectralAnalysis.mSpecMag ((A.lane t).mBeginBin + i)) (Floats.lit 0) /
      ofInt ((A.lane t).mEndBin - (A.lane t).mBeginBin + 1) with hdef
  have htone : ∀ i < Analysis.mNumTones,
      (sumAround (get A.mSpectralAnalysis.mSpecSize A.mSpectralAnalysis.mSpecMag)
        ((A.lane t).mFreqsBins i) : Option D) =
        some (Floats.toDouble (Globals.sum (fun n : ℕ =>
          cell A.mSpectralAnalysis.mSpecMag ((A.lane t).mFreqsBins i - Analysis.mBinWidth + n)) 3)) := fun i hi => by
    obtain ⟨h0, h1⟩ := htones i hi
    exact sumAround_eq fun n hn => get_eq (by omega) (by omega) _
  refine (congrArg (Option.bind · _) (forUpM_rule (f := fun i mEnergyRatios =>
    Function.update mEnergyRatios i (Floats.ofDouble (Doubles.lit 20 * Doubles.log10
      (Floats.toDouble (Globals.sum (fun n : ℕ => cell A.mSpectralAnalysis.mSpecMag
        ((A.lane t).mFreqsBins i - Analysis.mBinWidth + n)) Analysis.mSizeTokenBinAnal) /
          Doubles.lit Analysis.mSizeTokenBinAnal / Floats.toDouble energyBlock)))) (fun _ _ => True) trivial
    fun i e _ hi _ => ⟨?_, trivial⟩)).trans rfl
  rw [get_cast hi, Option.bind_some, htone i hi]
  exact put_cast hi e _

omit [CFFTOoura F] in
theorem ComputeStatsStartTokens_inv {A' : Analysis F} (h : ComputeStatsStartTokens lanes t A = some A') :
    InSpectrum A.mSpectralAnalysis.mSpecSize (A.lane t) (A.lane t).mFreqsBins := by
  obtain ⟨L, hL, h⟩ := Option.bind_eq_some_iff.1 h
  have ht : t < lanes := Int.ofNat_lt.1 (get_inv hL).2
  rw [get_cast ht] at hL
  obtain rfl := Option.some.inj hL
  obtain ⟨energyBlock, hblock, h⟩ := Option.bind_eq_some_iff.1 h
  obtain ⟨ratios, hloop, -⟩ := Option.bind_eq_some_iff.1 h
  refine inSpectrum_iff.2 ⟨fun bin h1 h2 => ?_, fun i hi => ?_⟩
  · obtain ⟨e, e', hround⟩ := forUpM_rounds hblock (Nat.zero_le (bin - (A.lane t).mBeginBin).toNat) (by omega)
    obtain ⟨mag, hmag, -⟩ := Option.bind_eq_some_iff.1 hround
    have hin := get_inv hmag
    omega
  · obtain ⟨e, e', hround⟩ := forUpM_rounds hloop (Nat.zero_le i) hi
    obtain ⟨bin, hbin, hround⟩ := Option.bind_eq_some_iff.1 hround
    obtain ⟨x, hx, -⟩ := Option.bind_eq_some_iff.1 hround
    rw [get_cast hi] at hbin
    obtain rfl := Option.some.inj hbin
    exact sumAround_range (fun bin mag hmag => get_inv hmag) hx

omit [CFFTOoura F] in
/-- The accesses of `ComputeStatsStartTokens` are in range exactly when its bins are. -/
theorem ComputeStatsStartTokens_isSome (ht : t < lanes) : (ComputeStatsStartTokens lanes t A).isSome ↔
    InSpectrum A.mSpectralAnalysis.mSpecSize (A.lane t) (A.lane t).mFreqsBins := by
  constructor
  · intro h
    exact ComputeStatsStartTokens_inv (Option.some_get h).symm
  · intro h
    rw [ComputeStatsStartTokens_eq ht h]
    rfl

/-! ### A block -/

section Values

variable {α : Type} (gt : α → α → Bool) (a : ℕ → α) {n size : ℕ}

theorem maxValueIdx_eq (hpos : 0 < n) (hsize : size ≤ n) :
    maxValueIdx gt n a size = some (Globals.maxValueIdx gt a size) := by
  unfold maxValueIdx
  rw [show ((0 : ℤ)) = ((0 : ℕ) : ℤ) from rfl, get_cast hpos, Option.bind_eq_bind, Option.bind_some]
  refine (congrArg (Option.bind · _) (forUpM_rule (f := fun i st =>
    if gt (a i) st.2 then (i, a i) else st) (fun _ _ => True) trivial
      fun i st _ hi _ => ⟨?_, trivial⟩)).trans rfl
  rw [get_cast (show i < n by omega)]
  rfl

theorem secondValueIdx_eq (hpos : 2 ≤ n) (hsize : size ≤ n) :
    secondValueIdx gt n a size = some (Globals.secondValueIdx gt a size) := by
  unfold secondValueIdx Globals.secondValueIdx
  rw [maxValueIdx_eq gt a (by omega) hsize, Option.bind_eq_bind, Option.bind_some]
  generalize Globals.maxValueIdx gt a size = m
  have hfirst : get n a (if m = 0 then 1 else 0 : ℕ) = some (a (if m = 0 then 1 else 0)) :=
    get_cast (by split <;> omega) a
  simp only
  rw [hfirst, Option.bind_eq_bind, Option.bind_some]
  have hstart : (if m = 0 then (1, a 1) else (0, a 0)) = (if m = 0 then 1 else 0, a (if m = 0 then 1 else 0)) := by
    split <;> rfl
  rw [hstart]
  refine (congrArg (Option.bind · _) (forUpM_rule (f := fun i st =>
    if i ≠ m then if gt (a i) st.2 then (i, a i) else st else st)
      (fun _ _ => True) trivial fun i st _ hi _ => ⟨?_, trivial⟩)).trans rfl
  by_cases him : i = m
  · simp only [him, ne_eq, not_true, if_false]
    rfl
  · simp only [him, ne_eq, not_false_iff, if_true]
    rw [get_cast (show i < n by omega)]
    rfl

end Values

section Block

variable {g : Globals F} {mode mDecoding : ℤ} {L : Lane F}

omit [CFFTOoura F] in
theorem energyBlock_eq (hn : 0 < A.mSizeBlockCircularBuffer)
    (hregion : ∀ bin, (A.lane t).mBeginBin ≤ bin → bin ≤ (A.lane t).mEndBin →
      0 ≤ bin ∧ bin < A.mSpectralAnalysis.mSpecSize) :
    (energyBlock A (A.lane t) : Option D) = some (A.energyBlock t) := by
  unfold energyBlock
  refine (congrArg (Option.bind · _) (forUpM_rule (f := fun k energyBlock =>
    forUp 0 ((A.lane t).mEndBin - (A.lane t).mBeginBin + 1).toNat (fun i energyBlock =>
      energyBlock + Floats.toDouble (cell (A.mBlockSpecMag (A.blockPos t k)) ((A.lane t).mBeginBin + i))) energyBlock)
    (fun _ _ => True) trivial fun k e _ _ _ => ⟨?_, trivial⟩)).trans rfl
  refine forUpM_rule (fun _ _ => True) trivial fun i e _ hi _ => ⟨?_, trivial⟩
  obtain ⟨h0, h1⟩ := hregion ((A.lane t).mBeginBin + i) (by omega) (by omega)
  rw [get2_eq (Nat.mod_lt _ hn) h0 h1]
  rfl

omit [CFFTOoura F] in
theorem frameStats_eq (energyBlock : D) (k : ℕ) (hn : 0 < A.mSizeBlockCircularBuffer)
    (hbins : (A.lane t).mFreqsBins = L.mFreqsBins)
    (hread : (A.lane t).mReadPosInBlockCircularBuffer = L.mReadPosInBlockCircularBuffer)
    (htones : ∀ i < Analysis.mNumTones, 1 ≤ Analysis.evalToneBin g mode mDecoding L i ∧
      Analysis.evalToneBin g mode mDecoding L i + 1 < A.mSpectralAnalysis.mSpecSize) :
    frameStats g mode mDecoding energyBlock L k A = some (Analysis.frameStats g mode mDecoding energyBlock t k A) := by
  have htone : ∀ i < Analysis.mNumTones, (sumAround (get2 A.mSizeBlockCircularBuffer A.mSpectralAnalysis.mSpecSize
      A.mBlockSpecMag ((L.mReadPosInBlockCircularBuffer + k) % A.mSizeBlockCircularBuffer : ℕ))
        (hopBin g mode mDecoding (L.mFreqsBins i)) : Option D) =
      some (Analysis.toneSum g mode mDecoding A t k i) := fun i hi => by
    obtain ⟨h0, h1⟩ := htones i hi
    have hbin : Analysis.evalToneBin g mode mDecoding (A.lane t) i = Analysis.evalToneBin g mode mDecoding L i := by
      unfold Analysis.evalToneBin
      rw [hbins]
    unfold Analysis.toneSum Analysis.blockPos
    rw [hbin, hread]
    have hhop : hopBin g mode mDecoding (L.mFreqsBins i) = Analysis.evalToneBin g mode mDecoding L i := rfl
    rw [hhop]
    exact sumAround_eq fun n hn' => get2_eq (Nat.mod_lt _ hn) (by omega) (by omega) _
  unfold frameStats
  refine then_eq (forUpM_rule (f := fun i st =>
    (Function.update st.1 i (Floats.ofDouble ((Analysis.toneSum g mode mDecoding A t k i : D) *
        Doubles.lit A.mSpectralAnalysis.mSpecSize / Floats.toDouble (ofInt (A.mSizeBlockCircularBuffer / 2 : ℕ) : F))),
      Function.update st.2 i (Floats.ofDouble (Doubles.lit 20 * Doubles.log10
        ((Analysis.toneSum g mode mDecoding A t k i : D) / Doubles.lit Analysis.mSizeTokenBinAnal / energyBlock)))))
    (fun _ _ => True) trivial fun i st _ hi _ => ⟨?_, trivial⟩) rfl
  refine then_eq (get_cast hi L.mFreqsBins) ?_
  refine then_eq (htone i hi) ?_
  refine then_eq (put_cast hi _ _) ?_
  exact then_eq (put_cast hi _ _) rfl

omit [Doubles D] [CFFTOoura F] in
theorem noteTones_eq (ht : t < lanes) (hn : 0 < A.mSizeBlockCircularBuffer) (k : ℕ) :
    noteTones lanes t k A = some (Analysis.noteTones t k A) := by
  have hpos : (((A.lane t).mReadPosInBlockCircularBuffer + k) % A.mSizeBlockCircularBuffer) <
      A.mSizeBlockCircularBuffer :=
    Nat.mod_lt _ hn
  have hmax : Globals.maxValueIdx floatGt A.mEnergyRatios Analysis.mNumTones < Analysis.mNumTones :=
    maxValueIdx_lt _ _ (by decide)
  have hsecond : Globals.secondValueIdx floatGt A.mEnergyRatios Analysis.mNumTones < Analysis.mNumTones :=
    (secondValueIdx_spec _ _ (by decide)).1
  unfold noteTones
  refine then_eq (maxValueIdx_eq floatGt A.mEnergyRatios (by decide) le_rfl) ?_
  refine then_eq (secondValueIdx_eq floatGt A.mEnergyRatios (by decide) le_rfl) ?_
  refine then_eq (get_cast ht A.lane) ?_
  refine then_eq (put_cast hpos _ _) ?_
  refine then_eq (put_cast hpos _ _) ?_
  refine then_eq (get_cast hpos _) ?_
  refine then_eq (get_cast hmax _) ?_
  refine then_eq (get_cast hsecond _) ?_
  refine then_eq (get_cast hmax _) ?_
  refine then_eq (get_cast hsecond _) ?_
  exact then_eq (put_cast hpos _ _) rfl

omit [CFFTOoura F] in
theorem ComputeStats_eq (ht : t < lanes) (hn : 0 < A.mSizeBlockCircularBuffer)
    (h : InSpectrum A.mSpectralAnalysis.mSpecSize (A.lane t) (Analysis.evalToneBin g mode mDecoding (A.lane t))) :
    ComputeStats lanes g mode mDecoding t A = some (A.ComputeStats g mode mDecoding t) := by
  obtain ⟨hregion, htones⟩ := inSpectrum_iff.1 h
  unfold ComputeStats
  refine then_eq (get_cast ht A.lane) ?_
  refine then_eq (energyBlock_eq hn hregion) ?_
  refine forUpM_rule (fun _ A' => Analysis.KeepsBlock A A') .rfl' fun k A' _ _ hkeep => ?_
  have hstats := frameStats_eq (A := A') (t := t) (A.energyBlock t) k (hkeep.size ▸ hn) (hkeep.bins t) (hkeep.read t)
    (by rwa [hkeep.spectral])
  have hkeep' := hkeep.trans (Analysis.frameStats_keeps g mode mDecoding (A.energyBlock t) t k A')
  refine ⟨?_, hkeep'.trans (Analysis.noteTones_keeps t k _)⟩
  refine then_eq hstats ?_
  exact noteTones_eq ht (hkeep'.size ▸ hn) k

omit [CFFTOoura F] in
theorem ComputeStats_inv {A' : Analysis F} (hn : 2 ≤ A.mSizeBlockCircularBuffer)
    (h : ComputeStats lanes g mode mDecoding t A = some A') :
    InSpectrum A.mSpectralAnalysis.mSpecSize (A.lane t) (Analysis.evalToneBin g mode mDecoding (A.lane t)) := by
  obtain ⟨L, hL, h⟩ := Option.bind_eq_some_iff.1 h
  have ht : t < lanes := Int.ofNat_lt.1 (get_inv hL).2
  rw [get_cast ht] at hL
  obtain rfl := Option.some.inj hL
  obtain ⟨energyBlock, hblock, h⟩ := Option.bind_eq_some_iff.1 h
  obtain ⟨sum, hregion, -⟩ := Option.bind_eq_some_iff.1 hblock
  refine inSpectrum_iff.2 ⟨fun bin h1 h2 => ?_, fun i hi => ?_⟩
  · obtain ⟨e, e', hframe⟩ := forUpM_rounds hregion (Nat.zero_le 0) (by omega)
    obtain ⟨d, d', hround⟩ := forUpM_rounds hframe (Nat.zero_le (bin - (A.lane t).mBeginBin).toNat) (by omega)
    obtain ⟨mag, hmag, -⟩ := Option.bind_eq_some_iff.1 hround
    have hin := get2_inv hmag
    omega
  · -- the first frame of the block is looked at before anything has changed
    obtain ⟨A₁, hfirst⟩ := forUpM_first (show 0 < A.mSizeBlockCircularBuffer / 2 by omega) h
    obtain ⟨A₂, hstats, -⟩ := Option.bind_eq_some_iff.1 hfirst
    obtain ⟨st, hloop, -⟩ := Option.bind_eq_some_iff.1 hstats
    obtain ⟨e, e', hround⟩ := forUpM_rounds hloop (Nat.zero_le i) hi
    obtain ⟨bin, hbin, hround⟩ := Option.bind_eq_some_iff.1 hround
    obtain ⟨x, hx, -⟩ := Option.bind_eq_some_iff.1 hround
    rw [get_cast hi] at hbin
    obtain rfl := Option.some.inj hbin
    exact sumAround_range (fun bin mag hmag => get2_inv hmag) hx

omit [CFFTOoura F] in
/-- The accesses of `ComputeStats` are in range exactly when its bins are. -/
theorem ComputeStats_isSome (ht : t < lanes) (hn : 2 ≤ A.mSizeBlockCircularBuffer) :
    (ComputeStats lanes g mode mDecoding t A).isSome ↔
      InSpectrum A.mSpectralAnalysis.mSpecSize (A.lane t) (Analysis.evalToneBin g mode mDecoding (A.lane t)) := by
  constructor
  · intro h
    exact ComputeStats_inv hn (Option.some_get h).symm
  · intro h
    rw [ComputeStats_eq ht (by omega) h]
    rfl

end Block

end Stats

end Checked

open Checked

/-! ## The lowest and the highest bin -/

/-- The bins around the first and the last tone, without a hop and with two, are in the spectrum of a window of `W`
samples: `b` is the bin of the first tone, `d` the distance of two tones and `n` the hop, in bins. -/
def Corners (W : ℕ) (b d n : ℤ) : Prop :=
  (1 ≤ b ∧ b + 1 ≤ (W / 2 : ℕ)) ∧ (1 ≤ b + 8 * d ∧ b + 8 * d + 1 ≤ (W / 2 : ℕ)) ∧
    (1 ≤ b + 2 * n ∧ b + 2 * n + 1 ≤ (W / 2 : ℕ)) ∧ (1 ≤ b + 8 * d + 2 * n ∧ b + 8 * d + 2 * n + 1 ≤ (W / 2 : ℕ))

/-- Tones and hops that go upwards. -/
theorem corners_iff {W : ℕ} {b d n : ℤ} (hd : 0 ≤ d) (hn : 0 ≤ n) :
    Corners W b d n ↔ 1 ≤ b ∧ b + 8 * d + 2 * n + 1 ≤ (W / 2 : ℕ) := by
  unfold Corners
  omega

theorem lane_corners {W : ℕ} {g : Globals ℝ} {mode : ℤ} {L : Lane ℝ} {b d n : ℤ}
    (hn : Analysis.nBinsOffset g mode = n)
    (hbins : ∀ i : ℕ, i < Analysis.mNumTones → L.mFreqsBins i = if 0 ≤ b + i * d then b + i * d else b + i * d + 1)
    (hbegin : L.mBeginBin = if 0 ≤ b then b else b + 1)
    (hend : L.mEndBin = if 0 ≤ b + 8 * d then b + 8 * d else b + 8 * d + 1) :
    LaneInSpectrum (W / 2 + 1) g mode L ↔ Corners W b d n := by
  have h0 : L.mFreqsBins 0 = if 0 ≤ b then b else b + 1 := by simpa using hbins 0 (by decide)
  have h8 : L.mFreqsBins 8 = if 0 ≤ b + 8 * d then b + 8 * d else b + 8 * d + 1 := by simpa using hbins 8 (by decide)
  constructor
  · rintro ⟨hstart, htokens⟩
    have hlow := (inSpectrum_iff.1 hstart).2 0 (by decide)
    have hhigh := (inSpectrum_iff.1 hstart).2 8 (by decide)
    have htwo : ∀ i, Analysis.evalToneBin g mode 2 L i = L.mFreqsBins i + n * 2 := fun i => by
      rw [← hn]
      rfl
    have hlow2 := (inSpectrum_iff.1 (htokens 2)).2 0 (by decide)
    have hhigh2 := (inSpectrum_iff.1 (htokens 2)).2 8 (by decide)
    rw [h0] at hlow
    rw [h8] at hhigh
    rw [htwo, h0] at hlow2
    rw [htwo, h8] at hhigh2
    unfold Corners
    split at hlow <;> split at hhigh <;> omega
  · intro h
    unfold Corners at h
    -- the bins of the other tones lie between those of the first and the last
    have hbetween : ∀ i < Analysis.mNumTones, L.mFreqsBins i = b + i * d ∧
        (b ≤ b + i * d ∧ b + i * d ≤ b + 8 * d ∨ b + 8 * d ≤ b + i * d ∧ b + i * d ≤ b) := by
      intro i hi
      have hle : 0 ≤ (i : ℤ) * d ∧ (i : ℤ) * d ≤ 8 * d ∨ 8 * d ≤ (i : ℤ) * d ∧ (i : ℤ) * d ≤ 0 := by
        have hi8 : (i : ℤ) ≤ 8 := by
          have : i < 9 := hi
          omega
        rcases le_total 0 d with hd | hd
        · exact Or.inl ⟨by positivity, mul_le_mul_of_nonneg_right hi8 hd⟩
        · exact Or.inr ⟨mul_le_mul_of_nonpos_right hi8 hd, mul_nonpos_of_nonneg_of_nonpos (by positivity) hd⟩
      have hpos : 0 ≤ b + i * d := by omega
      rw [hbins i hi, if_pos hpos]
      exact ⟨rfl, by omega⟩
    rw [if_pos (by omega)] at hbegin hend
    have hregion : ∀ bin, L.mBeginBin ≤ bin → bin ≤ L.mEndBin → 0 ≤ bin ∧ bin < (W / 2 + 1 : ℕ) := by
      intro bin h1 h2
      omega
    refine ⟨inSpectrum_iff.2 ⟨hregion, fun i hi => ?_⟩, fun mDecoding => inSpectrum_iff.2 ⟨hregion, fun i hi => ?_⟩⟩
    · have := hbetween i hi
      omega
    · have := hbetween i hi
      unfold Analysis.evalToneBin
      rw [hn]
      split
      · omega
      · split <;> omega

/-! ## Configurations -/

/-- No bin that the decoder reads is outside its spectrum. -/
def ReadsInSpectrum (st : OxyCore ℝ × Globals ℝ) : Prop :=
  AllInSpectrum st.1.mDecoder.cls st.2 st.1.mDecoder.core.analysis

/-- The bin of a frequency. -/
noncomputable def binOf (freq samplingRate : ℝ) : ℤ :=
  Globals.round (freq / (samplingRate / OxyCore.windowSizeFor samplingRate))

/-- The distance of two neighbouring tones that are three hops of `n` bins apart at 44100 Hz. -/
noncomputable def hopDistance (n : ℤ) (samplingRate : ℝ) : ℤ := Globals.round (3 * n * (44100 / samplingRate))

theorem grid_corners {c : DecoderClass} (hc : c.isMultiTone = true) (mem : Analysis ℝ) (g g' : Globals ℝ)
    {samplingRate : ℝ} (hrate : 0 < samplingRate) {W : ℕ} (hW : 0 < W) {t : ℕ} (ht : t < c.lanes) {n : ℤ}
    (hn : Analysis.nBinsOffset g' (laneMode c t) = n) {first distance : ℝ}
    (hgrid : ∀ idx : ℤ, Decoder.laneFreq c g t idx samplingRate W = toneGrid first distance idx samplingRate W) :
    LaneInSpectrum (Decoder.newAnalysis mem c g samplingRate W).mSpectralAnalysis.mSpecSize g' (laneMode c t)
        ((Decoder.newAnalysis mem c g samplingRate W).lane t) ↔
      Corners W (Globals.round (first / (samplingRate / W))) (Globals.round (distance / (samplingRate / W))) n := by
  obtain ⟨hbins, hbegin, hend⟩ := Decoder.newAnalysis_bins mem hc g samplingRate W ht
  refine lane_corners hn (fun i hi => ?_) ?_ ?_
  · rw [hbins i hi, hgrid]
    exact round_toneGrid first distance i hrate hW rfl
  · rw [hbegin, hgrid]
    exact round_toneGrid first distance 0 hrate hW (by ring)
  · rw [hend, hgrid]
    exact round_toneGrid first distance 8 hrate hW rfl

/-- A decoder of one mode. -/
theorem one_lane {c : DecoderClass} (hc : c.isMultiTone = true) (hlanes : c.lanes = 1) (mem : Decoder ℝ)
    (memRS : ReedSolomon) (g g' : Globals ℝ) {samplingRate : ℝ} (hrate : 0 < samplingRate) {W : ℕ} (hW : 0 < W) {n : ℤ}
    (hn : Analysis.nBinsOffset g' (laneMode c 0) = n) {first distance : ℝ}
    (hgrid : ∀ idx : ℤ, Decoder.laneFreq c (g.init W) 0 idx samplingRate W =
      toneGrid first distance idx samplingRate W) :
    AllInSpectrum c g' (Decoder.new mem memRS c g samplingRate W).core.analysis ↔
      Corners W (Globals.round (first / (samplingRate / W))) (Globals.round (distance / (samplingRate / W))) n := by
  have hlane : 0 < c.lanes := by omega
  rw [← grid_corners hc mem.core.analysis (g.init W) g' hrate hW hlane hn hgrid]
  constructor
  · intro h
    exact h 0 hlane
  · intro h t ht
    obtain rfl : t = 0 := by
      have : t < c.lanes := ht
      omega
    exact h

/-- The lowest and the highest bin that are read for tones that start at the frequency `first`, `d` bins apart, with
hops of `n` bins. -/
def Fits (first : ℝ) (d n : ℤ) (samplingRate : ℝ) : Prop :=
  1 ≤ binOf first samplingRate ∧
    binOf first samplingRate + 8 * d + 2 * n + 1 ≤ (OxyCore.windowSizeFor samplingRate / 2 : ℕ)

section Modes

variable {samplingRate : ℝ}

theorem spacing_hopDistance (n : ℤ) {W : ℕ} (hW : 0 < W) (hrate : 0 < samplingRate) :
    Globals.round ((ofInt n : ℝ) / (ofInt W / Floats.lit 44100) * Floats.lit 3 / (samplingRate / W)) =
      hopDistance n samplingRate := by
  rw [spacing_in_bins n hW hrate]
  rfl

theorem audible_corners (hrate : 0 < samplingRate) :
    Corners (OxyCore.windowSizeFor samplingRate)
        (Globals.round ((Floats.lit 3300 : ℝ) / (samplingRate / OxyCore.windowSizeFor samplingRate)))
        (Globals.round ((Floats.lit 750 : ℝ) / (samplingRate / OxyCore.windowSizeFor samplingRate))) 12 ↔
      Fits 3300 (binOf 750 samplingRate) 12 samplingRate := by
  have h3300 : (Floats.lit 3300 : ℝ) = 3300 := by rw [lit_eq]; norm_num
  have h750 : (Floats.lit 750 : ℝ) = 750 := by rw [lit_eq]; norm_num
  rw [h3300, h750]
  exact corners_iff (round_nonneg (by positivity)) (by decide)

/-- A mode with hops of `n` bins and its tones three hops apart at 44100 Hz. -/
theorem hop_corners {q : ℚ} {first : ℝ} (hq : (q : ℝ) = first) {n : ℤ} (hn : 0 ≤ n) (hrate : 0 < samplingRate) :
    Corners (OxyCore.windowSizeFor samplingRate)
        (Globals.round ((Floats.lit q : ℝ) / (samplingRate / OxyCore.windowSizeFor samplingRate)))
        (Globals.round ((ofInt n : ℝ) / (ofInt (OxyCore.windowSizeFor samplingRate) / Floats.lit 44100) * Floats.lit 3 /
          (samplingRate / OxyCore.windowSizeFor samplingRate))) n ↔
      Fits first (hopDistance n samplingRate) n samplingRate := by
  have hnr : (0 : ℝ) ≤ n := by exact_mod_cast hn
  rw [spacing_hopDistance n (windowSizeFor_pos samplingRate) hrate, lit_eq, hq]
  exact corners_iff (round_nonneg (by positivity)) hn

theorem reads_audible (mem : Decoder ℝ) (memRS : ReedSolomon) (g : Globals ℝ) (hrate : 0 < samplingRate) :
    ReadsInSpectrum (OxyCore.Configure mem memRS .AUDIBLE samplingRate g) ↔
      Fits 3300 (binOf 750 samplingRate) 12 samplingRate :=
  (one_lane (c := .AudibleMultiTone) rfl rfl mem memRS (g.init _) _ hrate (windowSizeFor_pos samplingRate) rfl
    fun _ => rfl).trans (audible_corners hrate)

theorem reads_nonAudible (mem : Decoder ℝ) (memRS : ReedSolomon) (g : Globals ℝ) (hrate : 0 < samplingRate) :
    ReadsInSpectrum (OxyCore.Configure mem memRS .NONAUDIBLE samplingRate g) ↔
      Fits 17800 (hopDistance 4 samplingRate) 4 samplingRate :=
  (one_lane (c := .NonAudibleMultiTone) rfl rfl mem memRS (g.init _) _ hrate (windowSizeFor_pos samplingRate) rfl
    fun _ => rfl).trans (hop_corners (by norm_num) (by decide) hrate)

theorem reads_compression (mem : Decoder ℝ) (memRS : ReedSolomon) (g : Globals ℝ) (hrate : 0 < samplingRate) :
    ReadsInSpectrum (OxyCore.Configure mem memRS .COMPRESSION samplingRate g) ↔
      Fits 14000 (hopDistance 3 samplingRate) 3 samplingRate :=
  (one_lane (c := .CompressionMultiTone) rfl rfl mem memRS (g.init _) _ hrate (windowSizeFor_pos samplingRate) rfl
    fun _ => rfl).trans (hop_corners (by norm_num) (by decide) hrate)

theorem reads_all (mem : Decoder ℝ) (memRS : ReedSolomon) (g : Globals ℝ) (hrate : 0 < samplingRate) :
    ReadsInSpectrum (OxyCore.Configure mem memRS .ALL samplingRate g) ↔
      Fits 3300 (binOf 750 samplingRate) 12 samplingRate ∧ Fits 17800 (hopDistance 4 samplingRate) 4 samplingRate ∧
        Fits 14000 (hopDistance 3 samplingRate) 3 samplingRate := by
  have hW := windowSizeFor_pos samplingRate
  set g' := (g.init (OxyCore.windowSizeFor samplingRate)).init (OxyCore.windowSizeFor samplingRate)
  have hlane0 := (grid_corners (c := .AllMultiTone) rfl mem.core.analysis g' g' hrate hW (show 0 < 3 by decide) rfl
    fun _ => rfl).trans (audible_corners hrate)
  have hlane1 := (grid_corners (c := .AllMultiTone) rfl mem.core.analysis g' g' hrate hW (show 1 < 3 by decide) rfl
    fun _ => rfl).trans (hop_corners (show ((17800 : ℚ) : ℝ) = 17800 by norm_num) (by decide) hrate)
  have hlane2 := (grid_corners (c := .AllMultiTone) rfl mem.core.analysis g' g' hrate hW (show 2 < 3 by decide) rfl
    fun _ => rfl).trans (hop_corners (show ((14000 : ℚ) : ℝ) = 14000 by norm_num) (by decide) hrate)
  rw [← hlane0, ← hlane1, ← hlane2]
  constructor
  · intro h
    exact ⟨h 0 (show 0 < 3 by decide), h 1 (show 1 < 3 by decide), h 2 (show 2 < 3 by decide)⟩
  · rintro ⟨h0, h1, h2⟩ t ht
    have ht3 : t < 3 := ht
    interval_cases t
    · exact h0
    · exact h1
    · exact h2

theorem reads_custom (mem : Decoder ℝ) (memRS : ReedSolomon) (g : Globals ℝ) (hrate : 0 < samplingRate) (baseFreq : ℝ)
    (s : ℤ) : ReadsInSpectrum (OxyCore.SetCustomBaseFreq mem memRS baseFreq s
      (OxyCore.Configure mem memRS .CUSTOM samplingRate g)) ↔
        Corners (OxyCore.windowSizeFor samplingRate) (binOf baseFreq samplingRate) (hopDistance (2 + s) samplingRate)
          (2 + s) := by
  have hW := windowSizeFor_pos samplingRate
  have hmode : ∀ W,
      (Decoder.new mem memRS (OxyCore.decoderClass .CUSTOM) (g.init W) samplingRate W).core.mDecodingMode =
        DECODING_MODE_CUSTOM := fun _ => rfl
  unfold binOf ReadsInSpectrum
  simp only [OxyCore.SetCustomBaseFreq, OxyCore.Configure, OxyCore.build, hmode, if_true]
  rw [← spacing_hopDistance (2 + s) hW hrate]
  exact one_lane (c := .CustomMultiTone) rfl rfl mem memRS _ _ hrate hW rfl fun _ => rfl

end Modes

/-- In exact arithmetic: the configurations all of whose reads of the spectrum are in range. -/
theorem spectrum_reads_iff (mem : Decoder ℝ) (memRS : ReedSolomon) (g : Globals ℝ) {samplingRate : ℝ}
    (hrate : 0 < samplingRate) :
    (ReadsInSpectrum (OxyCore.Configure mem memRS .AUDIBLE samplingRate g) ↔
      Fits 3300 (binOf 750 samplingRate) 12 samplingRate) ∧
    (ReadsInSpectrum (OxyCore.Configure mem memRS .NONAUDIBLE samplingRate g) ↔
      Fits 17800 (hopDistance 4 samplingRate) 4 samplingRate) ∧
    (ReadsInSpectrum (OxyCore.Configure mem memRS .COMPRESSION samplingRate g) ↔
      Fits 14000 (hopDistance 3 samplingRate) 3 samplingRate) ∧
    (ReadsInSpectrum (OxyCore.Configure mem memRS .ALL samplingRate g) ↔
      Fits 3300 (binOf 750 samplingRate) 12 samplingRate ∧ Fits 17800 (hopDistance 4 samplingRate) 4 samplingRate ∧
        Fits 14000 (hopDistance 3 samplingRate) 3 samplingRate) ∧
    ∀ (baseFreq : ℝ) (s : ℤ), ReadsInSpectrum (OxyCore.SetCustomBaseFreq mem memRS baseFreq s
      (OxyCore.Configure mem memRS .CUSTOM samplingRate g)) ↔
        Corners (OxyCore.windowSizeFor samplingRate) (binOf baseFreq samplingRate) (hopDistance (2 + s) samplingRate)
          (2 + s) :=
  ⟨reads_audible mem memRS g hrate, reads_nonAudible mem memRS g hrate, reads_compression mem memRS g hrate,
    reads_all mem memRS g hrate, reads_custom mem memRS g hrate⟩

theorem binOf_44100 {freq : ℝ} (hfreq : 0 ≤ freq) (bin : ℤ) (h : (bin : ℝ) ≤ freq * (2048 / 44100) + 1 / 2)
    (h' : freq * (2048 / 44100) + 1 / 2 < bin + 1) : binOf freq 44100 = bin := by
  have hquotient : freq / (44100 / (2048 : ℕ)) = freq * (2048 / 44100) := by
    push_cast
    ring
  rw [binOf, windowSizeFor_44100, hquotient, round_of_nonneg (by positivity), Int.floor_eq_iff]
  exact ⟨h, h'⟩

theorem hopDistance_44100 {n : ℤ} (hn : 0 ≤ n) : hopDistance n 44100 = 3 * n := by
  have hthree : (3 * n * (44100 / 44100) : ℝ) = ((3 * n : ℤ) : ℝ) := by
    push_cast
    ring
  rw [hopDistance, hthree, round_intCast, if_pos (by omega)]

/-- The first and the last bin of each built-in mode at 44100 Hz. -/
theorem fits_44100 : Fits 3300 (binOf 750 44100) 12 44100 ∧ Fits 17800 (hopDistance 4 44100) 4 44100 ∧
    Fits 14000 (hopDistance 3 44100) 3 44100 := by
  unfold Fits
  rw [binOf_44100 (by norm_num) 153 (by norm_num) (by norm_num),
    binOf_44100 (by norm_num) 35 (by norm_num) (by norm_num),
    binOf_44100 (by norm_num) 827 (by norm_num) (by norm_num),
    binOf_44100 (by norm_num) 650 (by norm_num) (by norm_num), hopDistance_44100 (by decide),
    hopDistance_44100 (by decide), windowSizeFor_44100]
  decide

/-- The built-in modes at 44100 Hz. -/
theorem builtin_44100 (mem : Decoder ℝ) (memRS : ReedSolomon) (g : Globals ℝ) {mode : OxyMode}
    (hmode : mode ≠ .CUSTOM) :
    ReadsInSpectrum (OxyCore.Configure mem memRS mode 44100 g) := by
  have hrate : (0 : ℝ) < 44100 := by norm_num
  obtain ⟨haudible, hnonAudible, hcompression⟩ := fits_44100
  cases mode with
  | AUDIBLE => exact (reads_audible mem memRS g hrate).2 haudible
  | NONAUDIBLE => exact (reads_nonAudible mem memRS g hrate).2 hnonAudible
  | COMPRESSION => exact (reads_compression mem memRS g hrate).2 hcompression
  | ALL => exact (reads_all mem memRS g hrate).2 ⟨haudible, hnonAudible, hcompression⟩
  | CUSTOM => exact absurd rfl hmode

/-- The non-audible mode at 44100 Hz: the highest bin read is 932, of 1025. -/
theorem spectrum_reads_44100 : ReadsInSpectrum (OxyCore.Configure default default .NONAUDIBLE (44100 : ℝ) initial) := by
  refine (spectrum_reads_iff default default initial (show (0 : ℝ) < 44100 by norm_num)).2.1.2 ?_
  unfold Fits
  rw [binOf_44100 (by norm_num) 827 (by norm_num) (by norm_num), hopDistance_44100 (by decide),
    windowSizeFor_44100]
  decide

/-- The custom mode at 44100 Hz with the first tone at 22000 Hz, on bin 1022: the last one is on bin 1094. -/
theorem custom_22000 : ¬ ReadsInSpectrum (OxyCore.SetCustomBaseFreq default default 22000 1
    (OxyCore.Configure default default .CUSTOM (44100 : ℝ) initial)) := by
  rw [reads_custom default default initial (show (0 : ℝ) < 44100 by norm_num)]
  unfold Corners
  rw [binOf_44100 (by norm_num) 1022 (by norm_num) (by norm_num), hopDistance_44100 (by decide),
    windowSizeFor_44100]
  decide

end Undertone
