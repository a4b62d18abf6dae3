import Undertone.History
import Undertone.Reception.Hearing

/-!
# The search for one message

Between two messages a single-mode decoder notes every frame and looks at the last notes of its ring (`Idle.step`). A
message is on the air with a half ring of frames of the first start token and one of the second. As long as too few
frames of the second token are in the window it is not opened (`Idle.waits`); with the last but one frame of the start
tokens at the latest it is (`opens_in_time`). So the decoder reports the start of the message with some frame between
these two, and the message begins with the next (`Idle.starts`).
-/

namespace Undertone

open CountedLoop RingBuffer Globals

namespace Core

open Analysis SpectralAnalysis Checked

variable {F D : Type} [Doubles D] [Floats F D] [CFFTOoura F]

/-! ## Settings -/

/-- The settings of an analysis are those of `A0`. -/
structure Settled (A0 A : Analysis F) : Prop where
  arrays : SameArrays A0 A
  tolerance : A.mnToleranceFrames = A0.mnToleranceFrames

/-- The bins of the mode are bins of the spectrum. -/
structure InTune (g : Globals F) (mode : ℤ) (A0 : Analysis F) : Prop where
  transform : 2 ≤ A0.mSpectralAnalysis.mFftSize
  spectrum : LaneInSpectrum A0.mSpectralAnalysis.mSpecSize g mode (A0.lane 0)

/-! ## A frame of the search -/

/-- The search has noted the frames before `k`, the first one in slot `E`. -/
structure Idle (n : ℕ) (A0 : Analysis F) (frames : ℕ → ℕ → F) (E k : ℕ) (C : Core F) : Prop where
  decoding : C.mDecoding = 0
  settled : Settled A0 C.analysis
  size : A0.mSizeBlockCircularBuffer = n
  write : C.analysis.mWritePosInBlockCircularBuffer = (E + k) % n
  read : (C.analysis.lane 0).mReadPosInBlockCircularBuffer = (E + (k + 2 - n)) % n
  noted : ∀ j < k, k ≤ j + n → Analysis.notes (C.analysis.lane 0) ((E + j) % n) = note A0 (frames j)

/-- What is in the window with frame `k`: the notes of the last `n - 1` frames, and behind them an older one. -/
def inWindow (n : ℕ) (A0 : Analysis F) (frames : ℕ → ℕ → F) (oldest : ℤ × ℤ) (k i : ℕ) : ℤ × ℤ :=
  if i + 1 < n then note A0 (frames (k + 2 - n + i)) else oldest

section Step

variable {c : DecoderClass} {g : Globals F} {n : ℕ} {A0 : Analysis F} {frames : ℕ → ℕ → F} {E k : ℕ} {C : Core F}

theorem Idle.bound (h : Idle n A0 frames E k C) : C.analysis.mSizeBlockCircularBuffer = n :=
  h.settled.arrays.size.trans h.size

/-- The notes once frame `k` is noted. -/
theorem Idle.notes (h : Idle n A0 frames E k C) (hlocal : RdftLocal F) {mode : ℤ} (htune : InTune g mode A0) :
    ∀ j < k + 1, k + 1 ≤ j + n →
      Analysis.notes ((lookingAt (frames k) C.analysis).lane 0) ((E + j) % n) = note A0 (frames j) := by
  have hrank := rankTones_notes 0 (storeSpectrum (frames k) C.analysis)
  have hnote : startTones ((storeSpectrum (frames k) C.analysis).lane 0)
      (storeSpectrum (frames k) C.analysis).mSpectralAnalysis.mSpecMag = note A0 (frames k) :=
    note_same hlocal htune.transform htune.spectrum.1 h.settled.arrays (frames k)
  have hput : Analysis.notes ((lookingAt (frames k) C.analysis).lane 0) =
      put n (Analysis.notes (C.analysis.lane 0)) (E + k) (note A0 (frames k)) := by
    rw [lookingAt, looking_lane, hrank, hnote]
    show put C.analysis.mSizeBlockCircularBuffer (Analysis.notes (C.analysis.lane 0))
      C.analysis.mWritePosInBlockCircularBuffer (note A0 (frames k)) = _
    rw [h.bound, h.write]
    unfold put
    rw [Nat.mod_mod]
  intro j hj hold
  rw [hput]
  by_cases hjk : j = k
  · subst hjk
    exact Function.update_self ..
  · have hne : (E + j) % n ≠ (E + k) % n := mod_ne (le_refl (E + j)) (by omega) (by omega)
    exact (Function.update_of_ne hne ..).trans (h.noted j (by omega) (by omega))

/-- How many slots are unread once frame `k` is noted. -/
theorem Idle.unread (h : Idle n A0 frames E k C) (hn : 2 ≤ n) :
    filled n (C.analysis.lane 0).mReadPosInBlockCircularBuffer
      ((C.analysis.mWritePosInBlockCircularBuffer + 1) % n) = k + 1 - (k + 2 - n) := by
  rw [h.read, h.write, Nat.mod_add_mod, filled_mod (by omega) (by omega)]
  omega

/-- A frame of the search is noted; it opens a message or not, as the window says. -/
theorem Idle.step (h : Idle n A0 frames E k C) (hc : c.isMultiTone = true) (hone : c ≠ .AllMultiTone) (hn : 2 ≤ n)
    (hlocal : RdftLocal F) {mode : ℤ} (htune : InTune g mode A0) :
    ∃ oldest, (n ≤ k + 1 → oldest = note A0 (frames (k + 1 - n))) ∧
      if n ≤ k + 2 ∧ Opens n A0.mnToleranceFrames (inWindow n A0 frames oldest k) then
        ∃ C', Core.step c g (frames k) C = (some (-2), C') ∧ Settled A0 C'.analysis ∧
          C'.mDecodedValues = C.mDecodedValues ++ [idxFrontDoorToken1, idxFrontDoorToken2]
      else ∃ C', Core.step c g (frames k) C = (none, C') ∧ Idle n A0 frames E (k + 1) C' ∧
        C'.mDecodedValues = C.mDecodedValues := by
  have hnotes := h.notes hlocal htune
  have hunread := h.unread hn
  have hread : (C.analysis.lane 0).mReadPosInBlockCircularBuffer < n := by
    rw [h.read]
    exact Nat.mod_lt _ (by omega)
  have hwrite : (lookingAt (frames k) C.analysis).mWritePosInBlockCircularBuffer = (E + (k + 1)) % n := by
    rw [lookingAt_write, h.bound, h.write, Nat.mod_add_mod, Nat.add_assoc]
  have htolerance : (lookingAt (frames k) C.analysis).mnToleranceFrames = C.analysis.mnToleranceFrames :=
    looking_tolerance 0 _
  rcases hA : C.AnalyzeStartTokens c (frames k) with ⟨ret, A⟩
  have hstep : Core.step c g (frames k) C =
      if isStart c ret then (some (-2), C.begin c ret A) else (none, { C with analysis := A }) := by
    unfold Core.step
    rw [if_pos h.decoding, hA]
  obtain ⟨hsearch, hstart, hnone⟩ := History.search_result hc hone hA
  have harrays : ∀ {r : Option ℤ} {C' : Core F}, Core.step c g (frames k) C = (r, C') → SameArrays A0 C'.analysis :=
    fun hs => h.settled.arrays.trans (sameArrays_step hc hs)
  refine ⟨Analysis.notes ((lookingAt (frames k) C.analysis).lane 0) ((E + (k + 1)) % n), fun hold => ?_, ?_⟩
  · have hslot : E + (k + 1) = E + (k + 1 - n) + n := by omega
    rw [hslot, Nat.add_mod_right]
    exact hnotes (k + 1 - n) (by omega) (by omega)
  by_cases hfull : n ≤ k + 2
  · rw [search_full h.bound hread (by omega)] at hsearch
    have hopens : startFound 0 (lookingAt (frames k) C.analysis) = true ↔ Opens n A0.mnToleranceFrames
        (inWindow n A0 frames (Analysis.notes ((lookingAt (frames k) C.analysis).lane 0) ((E + (k + 1)) % n)) k) := by
      rw [startFound_iff, lookingAt_size, h.bound, htolerance, h.settled.tolerance]
      refine Opens.congr fun i hi => ?_
      have hpos : (lookingAt (frames k) C.analysis).blockPos 0 i = (E + (k + 2 - n + i)) % n := by
        rw [blockPos, lookingAt_read, lookingAt_size, h.bound, h.read, Nat.mod_add_mod, Nat.add_assoc]
      rw [hpos]
      unfold inWindow
      by_cases hlast : i + 1 < n
      · rw [if_pos hlast]
        exact hnotes _ (by omega) (by omega)
      · rw [if_neg hlast, show k + 2 - n + i = k + 1 by omega]
    by_cases hfound : startFound 0 (lookingAt (frames k) C.analysis) = true
    · rw [if_pos ⟨hfull, hopens.1 hfound⟩]
      rw [if_pos hfound] at hsearch
      obtain ⟨rfl, rfl⟩ := Prod.mk.inj hsearch
      have hs : isStart c 1 = true := by
        by_contra hs
        exact absurd (hnone hs) (by decide)
      rw [if_pos hs] at hstep
      refine ⟨_, hstep, ⟨harrays hstep, ?_⟩, rfl⟩
      simp only [begin, if_pos hc]
      exact htolerance.trans h.settled.tolerance
    · rw [if_neg fun hboth => hfound (hopens.2 hboth.2)]
      rw [if_neg hfound] at hsearch
      obtain ⟨rfl, rfl⟩ := Prod.mk.inj hsearch
      rw [if_neg fun hs => absurd (hstart hs) (by decide)] at hstep
      refine ⟨_, hstep,
        ⟨h.decoding, ⟨harrays hstep, htolerance.trans h.settled.tolerance⟩, h.size, hwrite, ?_, ?_⟩, rfl⟩
      · rw [advanceReadPos_read, lookingAt_read, lookingAt_size, h.bound, h.read, Nat.mod_add_mod]
        exact congrArg (· % n) (by omega)
      · intro j hj hold
        have hsame : Analysis.notes ((advanceReadPos 0 (lookingAt (frames k) C.analysis)).lane 0) =
            Analysis.notes ((lookingAt (frames k) C.analysis).lane 0) := setRead_notes _ 0 0 _
        exact (congrFun hsame _).trans (hnotes j hj hold)
  · rw [if_neg fun hboth => hfull hboth.1]
    rw [search_short h.bound (by omega)] at hsearch
    obtain ⟨rfl, rfl⟩ := Prod.mk.inj hsearch
    rw [if_neg fun hs => absurd (hstart hs) (by decide)] at hstep
    refine ⟨_, hstep,
      ⟨h.decoding, ⟨harrays hstep, htolerance.trans h.settled.tolerance⟩, h.size, hwrite, ?_, hnotes⟩, rfl⟩
    rw [lookingAt_read, h.read]
    exact congrArg (fun m => (E + m) % n) (by omega)

end Step

/-! ## The window -/

section Window

variable {n k a tol : ℕ} {A0 : Analysis F} {frames : ℕ → ℕ → F} {oldest : ℤ × ℤ}

/-- While no frame before `b` is of the second start token, the window stays closed up to the frame with which enough
frames after `b` could be. -/
theorem not_opens {b : ℕ} (hk : n ≤ k + 2) (htol : 2 * tol + 2 ≤ n / 2)
    (hquiet : ∀ j, n / 2 ≤ j → j < b → ¬ Second (note A0 (frames j)))
    (hold : n ≤ k + 1 → oldest = note A0 (frames (k + 1 - n))) (hsoon : k + 1 < b + n / 2 - 2 * tol)
    (hsooner : k + 1 < n + n / 2 → k + 2 < b + n / 2 - 2 * tol) :
    ¬ Opens n tol (inWindow n A0 frames oldest k) := by
  rintro ⟨-, hsecond⟩
  set counted := (Finset.Ico (n / 2) n).filter fun i => Second (inWindow n A0 frames oldest k i) with hcounted
  have hrecent : ∀ i ∈ counted, i + 1 < n → b + n ≤ k + 2 + i := by
    intro i hi hlast
    obtain ⟨hrange, hmem⟩ := Finset.mem_filter.1 hi
    rw [Finset.mem_Ico] at hrange
    unfold inWindow at hmem
    rw [if_pos hlast] at hmem
    by_contra hlt
    exact hquiet _ (by omega) (by omega) hmem
  have hcard : ((n / 2 : ℕ) : ℤ) - tol * 2 ≤ counted.card := hsecond
  by_cases holdest : Second oldest
  · -- the oldest note is of a frame that nothing is known of
    have hunknown : k + 1 < n + n / 2 := by
      by_contra hle
      rw [hold (by omega)] at holdest
      exact hquiet _ (by omega) (by omega) holdest
    have hsub : counted ⊆ insert (n - 1) (Finset.Ico (max (n / 2) (b + n - (k + 2))) (n - 1)) := by
      intro i hi
      have hrange := Finset.mem_Ico.1 (Finset.mem_filter.1 hi).1
      have hfrom := hrecent i hi
      rw [Finset.mem_insert, Finset.mem_Ico]
      omega
    have hle := (Finset.card_le_card hsub).trans (Finset.card_insert_le _ _)
    have := hsooner hunknown
    rw [Nat.card_Ico] at hle
    omega
  · have hsub : counted ⊆ Finset.Ico (max (n / 2) (b + n - (k + 2))) (n - 1) := by
      intro i hi
      obtain ⟨hrange, hmem⟩ := Finset.mem_filter.1 hi
      have hrange := Finset.mem_Ico.1 hrange
      have hlast : i + 1 < n := by
        by_contra hlast
        unfold inWindow at hmem
        rw [if_neg hlast] at hmem
        exact holdest hmem
      have hfrom := hrecent i hi hlast
      rw [Finset.mem_Ico]
      omega
    have hle := Finset.card_le_card hsub
    rw [Nat.card_Ico] at hle
    omega

/-- With the last but one frame of the start tokens the window is open. -/
theorem opens_in_time (hn : 2 ≤ n) (htol : 1 ≤ tol)
    (hfirst : AllBut tol (fun j => First (note A0 (frames j))) a (a + n / 2))
    (hsecond : AllBut (2 * tol - 1) (fun j => Second (note A0 (frames j))) (a + n / 2) (a + n / 2 + n / 2))
    (hk : k + 2 = a + n) : Opens n tol (inWindow n A0 frames oldest k) := by
  have hrecent : ∀ i, i + 1 < n → inWindow n A0 frames oldest k i = note A0 (frames (a + i)) := by
    intro i hlast
    unfold inWindow
    rw [if_pos hlast]
    exact congrArg (fun j => note A0 (frames j)) (by omega)
  constructor
  · have hhalf : AllBut tol (fun i => First (inWindow n A0 frames oldest k i)) 0 (n / 2) := by
      refine ((AllBut.shift (q := tol) (a := 0) (b := n / 2) a).1 (hfirst.sub (by omega) (by omega))).mono le_rfl ?_
      intro i _ hi hnote
      rw [hrecent i (by omega)]
      exact hnote
    have hcount : n / 2 ≤ ((Finset.Ico 0 (n / 2)).filter fun i =>
        (inWindow n A0 frames oldest k i).1 = idxTonesFrontDoorToken1.1).card + tol := hhalf.count
    omega
  · have hhalf : AllBut (2 * tol - 1) (fun i => Second (inWindow n A0 frames oldest k i)) (n / 2) (n - 1) := by
      refine ((AllBut.shift (q := 2 * tol - 1) (a := n / 2) (b := n - 1) a).1 (hsecond.sub (by omega) (by omega))).mono
        le_rfl ?_
      intro i _ hi hnote
      rw [hrecent i (by omega)]
      exact hnote
    have hcount := hhalf.count
    have hmore : ((Finset.Ico (n / 2) (n - 1)).filter fun i => Second (inWindow n A0 frames oldest k i)).card ≤
        ((Finset.Ico (n / 2) n).filter fun i => Second (inWindow n A0 frames oldest k i)).card := by
      refine Finset.card_le_card (Finset.filter_subset_filter _ fun i hi => ?_)
      rw [Finset.mem_Ico] at hi ⊢
      omega
    have henough : n / 2 - 2 * tol ≤
        ((Finset.Ico (n / 2) n).filter fun i => (inWindow n A0 frames oldest k i).1 = idxTonesFrontDoorToken2.1 ∨
          (inWindow n A0 frames oldest k i).2 = idxTonesFrontDoorToken2.1).card := by
      refine le_trans ?_ hmore
      omega
    omega

end Window

/-! ## The start -/

/-- The start tokens are on the air from frame `a` on: all but a few frames of half a ring are of the first, and of the
half ring after it of the second; no frame before is of the second, after a pause at the beginning. -/
structure Opening (n tol : ℕ) (A0 : Analysis F) (frames : ℕ → ℕ → F) (a : ℕ) : Prop where
  pause : n + 2 * tol + 1 ≤ a + n / 2
  quiet : ∀ j, n / 2 ≤ j → j < a + n / 2 → ¬ Second (note A0 (frames j))
  first : AllBut tol (fun j => First (note A0 (frames j))) a (a + n / 2)
  second : AllBut (2 * tol - 1) (fun j => Second (note A0 (frames j))) (a + n / 2) (a + n / 2 + n / 2)

section Starts

variable {c : DecoderClass} {g : Globals F} {n tol : ℕ} {A0 : Analysis F} {frames : ℕ → ℕ → F} {E : ℕ} {C0 : Core F}

/-- Frames that are quiet throughout are noted, and nothing else happens. -/
theorem Idle.waits (h : Idle n A0 frames E 0 C0) (hc : c.isMultiTone = true) (hone : c ≠ .AllMultiTone)
    (hlocal : RdftLocal F) {mode : ℤ} (htune : InTune g mode A0) (htolerance : A0.mnToleranceFrames = tol)
    (htol : 2 * tol + 2 ≤ n / 2) {m : ℕ} (hquiet : ∀ j, n / 2 ≤ j → j < m → ¬ Second (note A0 (frames j))) :
    ∀ k ≤ m, (FrameBuffer.direct (Core.step c g) frames C0 k).1 = [] ∧
      Idle n A0 frames E k (FrameBuffer.direct (Core.step c g) frames C0 k).2 ∧
      (FrameBuffer.direct (Core.step c g) frames C0 k).2.mDecodedValues = C0.mDecodedValues := by
  intro k
  induction k with
  | zero => exact fun _ => ⟨rfl, h, rfl⟩
  | succ k ih =>
    intro hk
    obtain ⟨hresults, hidle, hvalues⟩ := ih (by omega)
    obtain ⟨oldest, hold, hstep⟩ := hidle.step hc hone (by omega) hlocal htune
    rw [htolerance] at hstep
    rw [if_neg fun hopen => not_opens hopen.1 htol hquiet hold (by omega) (by omega) hopen.2] at hstep
    obtain ⟨C', hstep, hidle', hvalues'⟩ := hstep
    simp only [FrameBuffer.direct, hstep, hresults]
    exact ⟨rfl, hidle', hvalues'.trans hvalues⟩

/-- The frame that opens the window. -/
theorem direct_opened {k : ℕ} {oldest : ℤ × ℤ} (hc : c.isMultiTone = true)
    (hresults : (FrameBuffer.direct (Core.step c g) frames C0 k).1 = []) {C : Core F}
    (hstep : Core.step c g (frames k) (FrameBuffer.direct (Core.step c g) frames C0 k).2 = (some (-2), C))
    (htol : 2 * tol + 2 ≤ n / 2) {a : ℕ} (hopening : Opening n tol A0 frames a)
    (hold : n ≤ k + 1 → oldest = note A0 (frames (k + 1 - n)))
    (hopen : n ≤ k + 2 ∧ Opens n tol (inWindow n A0 frames oldest k)) :
    a + n / 2 + n / 2 - 2 * tol ≤ k + 1 ∧ FrameBuffer.direct (Core.step c g) frames C0 (k + 1) = ([-2], C) ∧
      Started c C := by
  have hstarted := step_started hc (congrArg Prod.fst hstep)
  rw [hstep] at hstarted
  refine ⟨?_, ?_, hstarted⟩
  · by_contra hearly
    have hpause := hopening.pause
    exact not_opens hopen.1 htol hopening.quiet hold (by omega) (by omega) hopen.2
  · simp only [FrameBuffer.direct, hstep, hresults]
    rfl

/-- A message whose start tokens are on the air from frame `a` on is reported once, and it begins in time. -/
theorem Idle.starts (h : Idle n A0 frames E 0 C0) (hc : c.isMultiTone = true) (hone : c ≠ .AllMultiTone)
    (hlocal : RdftLocal F) {mode : ℤ} (htune : InTune g mode A0) (htolerance : A0.mnToleranceFrames = tol)
    (htol1 : 1 ≤ tol) (htol : 2 * tol + 2 ≤ n / 2) {a : ℕ} (hopening : Opening n tol A0 frames a) :
    ∃ s C, a + n / 2 + n / 2 - 2 * tol ≤ s ∧ s < a + n ∧
      FrameBuffer.direct (Core.step c g) frames C0 s = ([-2], C) ∧ Started c C ∧ Settled A0 C.analysis ∧
      C.mDecodedValues = C0.mDecodedValues ++ [idxFrontDoorToken1, idxFrontDoorToken2] := by
  have hpause := hopening.pause
  -- the induction is on the frames left until the window is open at the latest
  have hsearch : ∀ d k, k + d + 2 = a + n → (FrameBuffer.direct (Core.step c g) frames C0 k).1 = [] →
      Idle n A0 frames E k (FrameBuffer.direct (Core.step c g) frames C0 k).2 →
      (FrameBuffer.direct (Core.step c g) frames C0 k).2.mDecodedValues = C0.mDecodedValues →
      ∃ s C, a + n / 2 + n / 2 - 2 * tol ≤ s ∧ s < a + n ∧
        FrameBuffer.direct (Core.step c g) frames C0 s = ([-2], C) ∧ Started c C ∧ Settled A0 C.analysis ∧
        C.mDecodedValues = C0.mDecodedValues ++ [idxFrontDoorToken1, idxFrontDoorToken2] := by
    intro d
    induction d with
    | zero =>
      intro k hk hresults hidle hvalues
      obtain ⟨oldest, hold, hstep⟩ := hidle.step hc hone (by omega) hlocal htune (c := c) (g := g)
      have hopen : n ≤ k + 2 ∧ Opens n tol (inWindow n A0 frames oldest k) :=
        ⟨by omega, opens_in_time (by omega) htol1 hopening.first hopening.second (by omega)⟩
      rw [htolerance, if_pos hopen] at hstep
      obtain ⟨C, hstep, hsettled, hvalues'⟩ := hstep
      obtain ⟨hearly, hdirect, hstarted⟩ := direct_opened hc hresults hstep htol hopening hold hopen
      exact ⟨k + 1, C, hearly, by omega, hdirect, hstarted, hsettled, hvalues'.trans (by rw [hvalues])⟩
    | succ d ih =>
      intro k hk hresults hidle hvalues
      obtain ⟨oldest, hold, hstep⟩ := hidle.step hc hone (by omega) hlocal htune (c := c) (g := g)
      rw [htolerance] at hstep
      by_cases hopen : n ≤ k + 2 ∧ Opens n tol (inWindow n A0 frames oldest k)
      · rw [if_pos hopen] at hstep
        obtain ⟨C, hstep, hsettled, hvalues'⟩ := hstep
        obtain ⟨hearly, hdirect, hstarted⟩ := direct_opened hc hresults hstep htol hopening hold hopen
        exact ⟨k + 1, C, hearly, by omega, hdirect, hstarted, hsettled, hvalues'.trans (by rw [hvalues])⟩
      · rw [if_neg hopen] at hstep
        obtain ⟨C, hstep, hidle', hvalues'⟩ := hstep
        refine ih (k + 1) (by omega) ?_ ?_ ?_
        · simp only [FrameBuffer.direct, hstep, hresults]
          rfl
        · simp only [FrameBuffer.direct, hstep]
          exact hidle'
        · simp only [FrameBuffer.direct, hstep]
          exact hvalues'.trans hvalues
  exact hsearch (a + n - 2) 0 (by omega) rfl h rfl

end Starts

end Core

end Undertone
