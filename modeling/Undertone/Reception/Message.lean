import Undertone.Reception.Idle

/-!
# The reception of one message

After the start tokens a decoder takes the frames in blocks, each half a ring long. The blocks do not begin where the
symbols on the air do, but the symbols are as long as the blocks, so a block is as far off its symbol as the start was
off the start tokens. If the frames that it shares with another symbol and those that are disturbed are less than half
of it, it has the value of its symbol (`Receiving.block`). All 18 values come out in order, and the frame after the
last block ends the message (`Started.receives`).
-/

namespace Undertone

open CountedLoop RingBuffer Globals

namespace Core

open Analysis SpectralAnalysis Checked

/-! ## Symbols -/

/-- The tones of token `v` stand out in this frame, in the phase of the `p`-th block. -/
def ShowsToken (g : Globals ℝ) (mode : ℤ) (p : ℕ) (A : Analysis ℝ) (v : ℤ) (frame : ℕ → ℝ) : Prop :=
  Shows g mode p A (getIdxsFromIdx v).1.toNat (getIdxsFromIdx v).2.toNat frame

/-- The tones of a token are two of the nine, and no other token has them. -/
theorem tones_of_token {v : ℤ} (hv : 0 ≤ v ∧ v ≤ 31) :
    ((getIdxsFromIdx v).1.toNat < mNumTones ∧ (getIdxsFromIdx v).2.toNat < mNumTones ∧
      (getIdxsFromIdx v).1.toNat ≠ (getIdxsFromIdx v).2.toNat) ∧
    ∀ mode : ℤ, 0 ≤ mode ∧ mode ≤ 3 →
      idxToken mode (getIdxsFromIdx v).1.toNat (getIdxsFromIdx v).2.toNat = v := by
  have htable : ∀ v < 32, ((getIdxsFromIdx (v : ℕ)).1.toNat < mNumTones ∧
      (getIdxsFromIdx (v : ℕ)).2.toNat < mNumTones ∧
      (getIdxsFromIdx (v : ℕ)).1.toNat ≠ (getIdxsFromIdx (v : ℕ)).2.toNat) ∧
      getIdxTokenFromIdxsTones (getIdxsFromIdx (v : ℕ)).1.toNat (getIdxsFromIdx (v : ℕ)).2.toNat = (v : ℕ) := by
    decide
  obtain ⟨w, rfl⟩ : ∃ w : ℕ, v = w := ⟨v.toNat, by omega⟩
  obtain ⟨htones, htoken⟩ := htable w (by omega)
  refine ⟨htones, ?_⟩
  rintro mode ⟨h0, h3⟩
  rw [← htoken]
  interval_cases mode <;> rw [htoken] <;> exact htoken

/-! ## Blocks -/

/-- `m` frames and `k` blocks into a message whose start tokens ended with the analysis `B`: the ring holds the spectra
of its last frames. -/
structure Receiving (c : DecoderClass) (n : ℕ) (A0 B : Analysis ℝ) (frames : ℕ → ℕ → ℝ) (m k : ℕ) (C : Core ℝ) :
    Prop where
  onTime : OnTime c B m k C
  settled : Settled A0 C.analysis
  size : B.mSizeBlockCircularBuffer = n
  cells : ∀ i < m, m ≤ i + n → ∀ bin < A0.mSpectralAnalysis.mSpecSize,
    C.analysis.mBlockSpecMag ((B.mWritePosInBlockCircularBuffer + i) % n) bin =
      (A0.mSpectralAnalysis.doFFT (frames i)).mSpecMag bin

section Blocks

variable {c : DecoderClass} {g : Globals ℝ} {n q m k : ℕ} {A0 B : Analysis ℝ} {frames : ℕ → ℕ → ℝ} {C : Core ℝ}

theorem Started.receiving (h : Started c C) (hsettled : Settled A0 C.analysis)
    (hsize : A0.mSizeBlockCircularBuffer = n) : Receiving c n A0 C.analysis frames 0 0 C :=
  ⟨h.onTime, hsettled, hsettled.arrays.size.trans hsize, fun i hi => absurd hi (Nat.not_lt_zero i)⟩

/-- The ring once the next frame is stored. -/
theorem Receiving.stored (h : Receiving c n A0 B frames m k C) (h2 : 2 ≤ A0.mSpectralAnalysis.mFftSize) :
    ∀ i < m + 1, m + 1 ≤ i + n → ∀ bin < A0.mSpectralAnalysis.mSpecSize,
      (stored (frames m) C).mBlockSpecMag ((B.mWritePosInBlockCircularBuffer + i) % n) bin =
        (A0.mSpectralAnalysis.doFFT (frames i)).mSpecMag bin := by
  intro i hi hold bin hbin
  have hwrite : C.analysis.mWritePosInBlockCircularBuffer = (B.mWritePosInBlockCircularBuffer + m) % n := by
    rw [h.onTime.write, h.size]
  have hspec : C.analysis.mSpectralAnalysis.mSpecSize = A0.mSpectralAnalysis.mSpecSize := by
    unfold SpectralAnalysis.mSpecSize
    rw [h.settled.arrays.fft]
  refine (storeSpectrum_cell hwrite (h.onTime.size.trans h.size) (frames m) hi hold (hspec ▸ hbin)).trans ?_
  by_cases him : i = m
  · rw [if_pos him, him]
    exact spectrum_same rdftLocal_real h2 h.settled.arrays (frames m) bin hbin
  · rw [if_neg him]
    exact h.cells i (by omega) (by omega) bin hbin

/-- A frame completes a block when half a ring of frames has been stored since the block began. -/
theorem Receiving.consumes_iff (h : Receiving c n A0 B frames m k C) (hn : 2 ≤ n) (hk : k < 18) :
    Consumes c (frames m) C ↔ m + 1 = blockStart n k + n / 2 := by
  have hd := h.onTime.decoding
  have hsize : (Core.stored (frames m) C).mSizeBlockCircularBuffer = n := h.onTime.size.trans h.size
  have hfilled := h.onTime.filled hk (by rw [h.size]; exact hn) (frames m)
  have hbegun := h.onTime.begun (by rw [h.size]; exact hn)
  have hpending := h.onTime.pending (by rw [h.size]; exact hn) hk
  rw [h.size] at hfilled hbegun hpending
  unfold Consumes
  rw [hfilled, hsize]
  omega

/-- A block most of whose frames show a token votes for it. -/
theorem Receiving.block (h : Receiving c n A0 B frames m k C) (hone : c ≠ .AllMultiTone) (htune : InTune g c.mode A0)
    (hmode : A0.mSpectralAnalysis.mode = .kEnergySpectrum) (hm : m + 1 = blockStart n k + n / 2) {v : ℤ}
    (hv : 0 ≤ v ∧ v ≤ 31)
    (hshows : AllBut q (fun i => ShowsToken g c.mode (k + 1) A0 v (frames i)) (blockStart n k) (blockStart n k + n / 2))
    (hq : 2 * q < n / 2) (hrange : 0 ≤ tokenMode c C ∧ tokenMode c C ≤ 3) :
    idxToken (tokenMode c C) (blockTones c g (frames m) C).1 (blockTones c g (frames m) C).2 = v := by
  obtain ⟨⟨ha, hb, hab⟩, htoken⟩ := tones_of_token hv
  have hsize : (Core.stored (frames m) C).mSizeBlockCircularBuffer = n := h.onTime.size.trans h.size
  have hsame : SameArrays A0 (Core.stored (frames m) C) :=
    h.settled.arrays.trans ⟨rfl, rfl, rfl, rfl, rfl, fun _ => rfl, fun _ => rfl, fun _ => rfl⟩
  have hpos : ∀ j, (Core.stored (frames m) C).blockPos 0 j =
      (B.mWritePosInBlockCircularBuffer + (blockStart n k + j)) % n := by
    intro j
    have hread := h.onTime.read
    rw [History.tokenLane_single hone, h.size] at hread
    rw [blockPos, hsize, show ((Core.stored (frames m) C).lane 0).mReadPosInBlockCircularBuffer = _ from hread,
      Nat.mod_add_mod, Nat.add_assoc]
  have hblock : BlockOf A0 (Core.stored (frames m) C) fun j => frames (blockStart n k + j) := by
    intro j hj bin hbin
    rw [hsize] at hj
    rw [hpos]
    exact h.stored htune.transform _ (by omega) (by omega) bin hbin
  have hmost : AllBut q (fun j => Shows g c.mode (k + 1) A0 (getIdxsFromIdx v).1.toNat (getIdxsFromIdx v).2.toNat
      (frames (blockStart n k + j))) 0 ((Core.stored (frames m) C).mSizeBlockCircularBuffer / 2) := by
    have hshift := (AllBut.shift (q := q) (P := fun i => ShowsToken g c.mode (k + 1) A0 v (frames i)) (a := 0)
      (b := n / 2) (blockStart n k)).1 (hshows.sub (by omega) (by omega))
    rw [hsize]
    exact hshift.mono le_rfl fun j _ _ hshow => hshow
  have hdecoding : C.mDecoding = ((k + 1 : ℕ) : ℤ) := by
    rw [h.onTime.decoding]
    push_cast
    rfl
  have hmodeC : tokenMode c C = c.mode := if_neg hone
  unfold blockTones
  rw [hmodeC] at hrange ⊢
  rw [hdecoding, History.tokenLane_single hone]
  rcases hblock.token_of_most hsame hmode htune.spectrum ha hb hab hmost (by rw [hsize]; exact hq) with hvote | hvote
  · rw [hvote]
    exact htoken _ hrange
  · rw [hvote, idxToken_comm]
    exact htoken _ hrange

/-- A frame that completes a block gives the value of its symbol, and no other frame gives one. -/
theorem Receiving.step (h : Receiving c n A0 B frames m k C) (hc : c.isMultiTone = true) (hone : c ≠ .AllMultiTone)
    (hn : 2 ≤ n) (htune : InTune g c.mode A0) (hmode : A0.mSpectralAnalysis.mode = .kEnergySpectrum) (hk : k < 18)
    {v : ℤ} (hv : 0 ≤ v ∧ v ≤ 31)
    (hshows : AllBut q (fun i => ShowsToken g c.mode (k + 1) A0 v (frames i)) (blockStart n k) (blockStart n k + n / 2))
    (hq : 2 * q < n / 2) :
    if m + 1 = blockStart n k + n / 2 then ∃ C', Core.step c g (frames m) C = (some v, C') ∧
      Receiving c n A0 B frames (m + 1) (k + 1) C' ∧ C'.mDecodedValues = C.mDecodedValues ++ [v]
    else ∃ C', Core.step c g (frames m) C = (none, C') ∧
      Receiving c n A0 B frames (m + 1) k C' ∧ C'.mDecodedValues = C.mDecodedValues := by
  have hstored := h.stored htune.transform
  have hd := h.onTime.decoding
  have harrays : ∀ {r : Option ℤ} {C' : Core ℝ}, Core.step c g (frames m) C = (r, C') → SameArrays A0 C'.analysis :=
    fun hs => h.settled.arrays.trans (sameArrays_step hc hs)
  by_cases hm : m + 1 = blockStart n k + n / 2
  · rw [if_pos hm]
    have hcons := (h.consumes_iff hn hk).2 hm
    have hrange := h.onTime.mode.range hc
    have hvalue := h.block hone htune hmode hm hv hshows hq hrange
    have htoken : IsTokenPair (blockTones c g (frames m) C).1 (blockTones c g (frames m) C).2 := by
      rw [← idxToken_nonneg hrange, hvalue]
      exact hv.1
    obtain ⟨-, htime, -⟩ := h.onTime.consumes hc hk g (frames m) hcons htoken
    obtain ⟨A, hkeep, hstep⟩ := step_consumes hc (g := g) hcons
    rw [hvalue, if_pos hv.1] at hstep
    rw [hstep] at htime
    refine ⟨_, hstep, ⟨htime, ⟨harrays hstep, ?_⟩, h.size, fun i hi hold bin hbin => ?_⟩, rfl⟩
    · exact hkeep.tolerance.trans h.settled.tolerance
    · refine Eq.trans ?_ (hstored i hi hold bin hbin)
      rw [← hkeep.mag]
      rfl
  · rw [if_neg hm]
    have hcons : ¬ Consumes c (frames m) C := fun hcons => hm ((h.consumes_iff hn hk).1 hcons)
    obtain ⟨-, htime⟩ := h.onTime.stores hc hk g (frames m) hcons
    have hstep := step_stores hc g (frames m) C (by omega) (by omega) hcons
    rw [hstep] at htime
    exact ⟨_, hstep, ⟨htime, ⟨harrays hstep, h.settled.tolerance⟩, h.size, hstored⟩, rfl⟩

end Blocks

/-! ## The message -/

/-- The frames from `b` on carry the 18 symbols `v`, each for half a ring, but for a few frames of each. -/
def Carries (g : Globals ℝ) (mode : ℤ) (n q : ℕ) (A0 : Analysis ℝ) (v : ℕ → ℤ) (frames : ℕ → ℕ → ℝ) (b : ℕ) : Prop :=
  ∀ k < 18, (0 ≤ v k ∧ v k ≤ 31) ∧ AllBut q (fun i => ShowsToken g mode (k + 1) A0 (v k) (frames i))
    (b + blockStart n k) (b + blockStart n k + n / 2)

section Message

variable {c : DecoderClass} {g : Globals ℝ} {n q : ℕ} {A0 : Analysis ℝ} {frames : ℕ → ℕ → ℝ} {C0 : Core ℝ} {v : ℕ → ℤ}

theorem blockStart_last (n : ℕ) : blockStart n 17 + n / 2 = 9 * n ∧ blockStart n 18 = 9 * n := by
  unfold blockStart
  omega

theorem blockStart_mono {n k l : ℕ} (h : k ≤ l) : blockStart n k ≤ blockStart n l := by
  have := Nat.mul_le_mul_right n h
  unfold blockStart
  omega

/-- The frames of the blocks. -/
theorem Started.reads (h : Started c C0) (hsettled : Settled A0 C0.analysis) (hsize : A0.mSizeBlockCircularBuffer = n)
    (hc : c.isMultiTone = true) (hone : c ≠ .AllMultiTone) (hn : 2 ≤ n) (htune : InTune g c.mode A0)
    (hmode : A0.mSpectralAnalysis.mode = .kEnergySpectrum) (hcarries : Carries g c.mode n q A0 v frames 0)
    (hq : 2 * q < n / 2) : ∀ m ≤ 9 * n, ∃ k ≤ 18, (k = 18 → m = 9 * n) ∧
      (FrameBuffer.direct (Core.step c g) frames C0 m).1 = (List.range k).map v ∧
      Receiving c n A0 C0.analysis frames m k (FrameBuffer.direct (Core.step c g) frames C0 m).2 ∧
      (FrameBuffer.direct (Core.step c g) frames C0 m).2.mDecodedValues =
        C0.mDecodedValues ++ (List.range k).map v := by
  intro m
  induction m with
  | zero =>
    exact fun _ => ⟨0, Nat.zero_le 18, fun h0 => absurd h0 (by decide), rfl, h.receiving hsettled hsize,
      (List.append_nil _).symm⟩
  | succ m ih =>
    intro hm
    obtain ⟨k, hk, hall, hresults, hreceiving, hvalues⟩ := ih (by omega)
    have hk : k < 18 := lt_of_le_of_ne hk fun h18 => absurd (hall h18) (by omega)
    obtain ⟨hv, hshows⟩ := hcarries k hk
    rw [Nat.zero_add] at hshows
    have hstep := hreceiving.step hc hone hn htune hmode hk hv hshows hq
    by_cases hlast : m + 1 = blockStart n k + n / 2
    · rw [if_pos hlast] at hstep
      obtain ⟨C', hstep, hreceiving', hvalues'⟩ := hstep
      refine ⟨k + 1, hk, fun h18 => ?_, ?_⟩
      · obtain rfl : k = 17 := by omega
        exact hlast.trans (blockStart_last n).1
      simp only [FrameBuffer.direct, hstep, hresults, List.range_succ, List.map_append]
      refine ⟨rfl, hreceiving', ?_⟩
      rw [hvalues', hvalues, List.append_assoc]
      rfl
    · rw [if_neg hlast] at hstep
      obtain ⟨C', hstep, hreceiving', hvalues'⟩ := hstep
      refine ⟨k, hk.le, fun h18 => absurd h18 (by omega), ?_⟩
      simp only [FrameBuffer.direct, hstep, hresults]
      exact ⟨List.append_nil _, hreceiving', hvalues'.trans hvalues⟩

/-- The 18 symbols come out in their order, and the decoder searches again. -/
theorem Started.receives (h : Started c C0) (hsettled : Settled A0 C0.analysis)
    (hsize : A0.mSizeBlockCircularBuffer = n) (hc : c.isMultiTone = true) (hone : c ≠ .AllMultiTone) (hn : 2 ≤ n)
    (htune : InTune g c.mode A0) (hmode : A0.mSpectralAnalysis.mode = .kEnergySpectrum)
    (hcarries : Carries g c.mode n q A0 v frames 0) (hq : 2 * q < n / 2) (later : ℕ → ℕ → ℝ) :
    ∃ E C, (FrameBuffer.direct (Core.step c g) frames C0 (9 * n)).1 = (List.range 18).map v ∧
      Core.step c g (frames (9 * n)) (FrameBuffer.direct (Core.step c g) frames C0 (9 * n)).2 = (some (-3), C) ∧
      C.mDecodedValues = C0.mDecodedValues ++ (List.range 18).map v ∧ Idle n A0 later E 0 C := by
  obtain ⟨k, hk, -, hresults, hreceiving, hvalues⟩ :=
    h.reads hsettled hsize hc hone hn htune hmode hcarries hq (9 * n) le_rfl
  obtain rfl : k = 18 := by
    by_contra hne
    have hpending := hreceiving.onTime.pending (by rw [hreceiving.size]; exact hn) (by omega)
    rw [hreceiving.size] at hpending
    have hmono := blockStart_mono (n := n) (show k ≤ 17 by omega)
    have hlast := (blockStart_last n).1
    omega
  set C := (FrameBuffer.direct (Core.step c g) frames C0 (9 * n)).2
  have hd := hreceiving.onTime.decoding
  have hstep := step_finished c g (frames (9 * n)) (C := C) (by omega)
  have hread := hreceiving.onTime.read
  rw [History.tokenLane_single hone, hreceiving.size, (blockStart_last n).2] at hread
  have hwrite := hreceiving.onTime.write
  rw [hreceiving.size] at hwrite
  have hfinish : (C.finish c).analysis = finishConfidence C.analysis := by
    unfold finish
    exact if_pos hc
  refine ⟨C0.analysis.mWritePosInBlockCircularBuffer + 9 * n, _, hresults, hstep, hvalues, rfl,
    ⟨hreceiving.settled.arrays.trans (sameArrays_step hc hstep), ?_⟩, hsize, ?_, ?_,
    fun j hj => absurd hj (Nat.not_lt_zero j)⟩
  · rw [hfinish]
    exact hreceiving.settled.tolerance
  · rw [hfinish, Nat.add_zero]
    exact hwrite
  · rw [hfinish, show 0 + 2 - n = 0 by omega, Nat.add_zero]
    exact hread

end Message

end Core

end Undertone
