import Undertone.Blocks
import Undertone.Leftover

/-!
# The frames of the start window

A history numbers the frames that a decoder analysed and records which of them each slot of its rings was noted from.
A single-mode decoder looks for the start tokens when all slots but one are unread, and scans all of them: the last
offset of the window is the slot behind the last frame, which holds the oldest note of the ring. The other slots are
unread frames in the order in which they were received (`Ready`), so the window is in order exactly when that one note
is not counted (`window_in_order`).
-/

namespace Undertone

open CountedLoop RingBuffer Globals

structure History (F : Type) where
  core : Core F
  /-- The number of frames. -/
  frames : ℕ
  /-- For each mode and slot of its ring, the number of the frame noted there; `0` before the first. -/
  stamps : ℕ → ℕ → ℕ
  /-- The spectrum of each frame, by its number. -/
  spectrum : ℕ → ℕ → F

namespace History

open Analysis

variable {F D : Type} [Doubles D] [Floats F D] [CFFTOoura F]

def new (C : Core F) : History F := ⟨C, 0, fun _ _ => 0, fun _ => C.analysis.mSpectralAnalysis.mSpecMag⟩

def move (c : DecoderClass) (m : Core.Move F) (H : History F) : Option (Option ℤ × History F) :=
  (Core.move c m H.core).map fun (r, C) =>
    match m with
    | .frame _ frame =>
      (r, { core := C
            frames := H.frames + 1
            stamps :=
              if H.core.mDecoding = 0 then
                stampModes (H.frames + 1) c.lanes 0 (storeSpectrum frame H.core.analysis) H.stamps
              else H.stamps
            spectrum := Function.update H.spectrum (H.frames + 1)
              (H.core.analysis.mSpectralAnalysis.doFFT frame).mSpecMag })
    | .poll => (r, { H with core := C })

/-- Every run of the analysis has its history. -/
theorem exists_run {c : DecoderClass} {H : History F} {log : List (Core.Move F × Option ℤ)} {C : Core F}
    (h : Run (Core.move c) H.core log C) : ∃ H', Run (move c) H log H' ∧ H'.core = C := by
  refine h.follow core fun m H r C hm => ?_
  unfold move
  rw [hm]
  cases m with
  | frame g frame => exact ⟨_, rfl, rfl⟩
  | poll => exact ⟨_, rfl, rfl⟩

/-- A history changes nothing of what it records. -/
theorem move_core {c : DecoderClass} {m : Core.Move F} {H H' : History F} {r : Option ℤ}
    (h : move c m H = some (r, H')) : Core.move c m H.core = some (r, H'.core) := by
  obtain ⟨⟨r', C⟩, hC, hH⟩ := Option.map_eq_some_iff.1 h
  rw [hC]
  cases m with
  | frame g frame =>
    obtain ⟨rfl, rfl⟩ := Prod.mk.inj hH
    rfl
  | poll =>
    obtain ⟨rfl, rfl⟩ := Prod.mk.inj hH
    rfl

theorem run_core {c : DecoderClass} {H H' : History F} {log : List (Core.Move F × Option ℤ)}
    (h : Run (move c) H log H') : Run (Core.move c) H.core log H'.core :=
  h.project core fun _ _ _ _ => move_core

theorem move_frame {c : DecoderClass} {g : Globals F} {frame : ℕ → F} {H H' : History F} {r : Option ℤ}
    (h : move c (.frame g frame) H = some (r, H')) :
    Core.step c g frame H.core = (r, H'.core) ∧ H'.frames = H.frames + 1 ∧
      (H'.stamps = if H.core.mDecoding = 0 then
        stampModes (H.frames + 1) c.lanes 0 (storeSpectrum frame H.core.analysis) H.stamps else H.stamps) ∧
      H'.spectrum = Function.update H.spectrum (H.frames + 1)
        (H.core.analysis.mSpectralAnalysis.doFFT frame).mSpecMag := by
  rcases hs : Core.step c g frame H.core with ⟨r', C⟩
  unfold move at h
  rw [show Core.move c (.frame g frame) H.core = some (r', C) from congrArg some hs] at h
  obtain ⟨rfl, rfl⟩ := Prod.mk.inj (Option.some.inj h)
  exact ⟨rfl, rfl, rfl, rfl⟩

/-! ## The window of a single mode -/

/-- The slot lies between the read and the write position once the next frame is stored. -/
def Unread (H : History F) (pos : ℕ) : Prop :=
  ∃ j < filled H.core.analysis.mSizeBlockCircularBuffer (H.core.analysis.lane 0).mReadPosInBlockCircularBuffer
      ((H.core.analysis.mWritePosInBlockCircularBuffer + 1) % H.core.analysis.mSizeBlockCircularBuffer),
    pos = H.core.analysis.blockPos 0 j

/-- The start that is reported with the step from `H` to `H'` was found in order: every frame counted toward the second
start token was received after every frame counted toward the first, all counted frames were unread, and the unread
frames alone decide. -/
structure InOrder (H H' : History F) : Prop where
  ordered : ∀ i j, i < H.core.analysis.mSizeBlockCircularBuffer / 2 →
    H.core.analysis.mSizeBlockCircularBuffer / 2 ≤ j → j < H.core.analysis.mSizeBlockCircularBuffer →
    Counted H.core.analysis.mSizeBlockCircularBuffer i
      (notes (H'.core.analysis.lane 0) (H.core.analysis.blockPos 0 i)) →
    Counted H.core.analysis.mSizeBlockCircularBuffer j
      (notes (H'.core.analysis.lane 0) (H.core.analysis.blockPos 0 j)) →
    H'.stamps 0 (H.core.analysis.blockPos 0 i) < H'.stamps 0 (H.core.analysis.blockPos 0 j)
  unread : ∀ i < H.core.analysis.mSizeBlockCircularBuffer,
    Counted H.core.analysis.mSizeBlockCircularBuffer i
      (notes (H'.core.analysis.lane 0) (H.core.analysis.blockPos 0 i)) →
    H.Unread (H.core.analysis.blockPos 0 i)
  verdict : ∀ w : ℕ → ℤ × ℤ, (∀ i < H.core.analysis.mSizeBlockCircularBuffer, H.Unread (H.core.analysis.blockPos 0 i) →
      w i = notes (H'.core.analysis.lane 0) (H.core.analysis.blockPos 0 i)) →
    Opens H.core.analysis.mSizeBlockCircularBuffer H.core.analysis.mnToleranceFrames w

/-- Every start in the run is found in order. -/
def StartsInOrder (c : DecoderClass) (H0 : History F) (log : List (Core.Move F × Option ℤ)) : Prop :=
  ∀ l g frame H H', l ++ [(.frame g frame, some (-2))] <+: log → Run (move c) H0 l H →
    move c (.frame g frame) H = some (some (-2), H') → InOrder H H'

/-- The slot behind that of the next frame holds no note that counts toward the second start token. -/
def SkipsOldest (H : History F) : Prop :=
  ¬ Counted H.core.analysis.mSizeBlockCircularBuffer (H.core.analysis.mSizeBlockCircularBuffer - 1)
    (notes (H.core.analysis.lane 0)
      ((H.core.analysis.mWritePosInBlockCircularBuffer + 1) % H.core.analysis.mSizeBlockCircularBuffer))

/-- Whenever a frame is searched that fills the window, the oldest note does not count. -/
def OldestNeverCounts (c : DecoderClass) (H0 : History F) (log : List (Core.Move F × Option ℤ)) : Prop :=
  ∀ l g frame r H, l ++ [(.frame g frame, r)] <+: log → Run (move c) H0 l H → H.core.mDecoding = 0 →
    Full H.core.analysis 0 → H.SkipsOldest

/-- With no start in the run the oldest note counts. -/
def StartsSkipOldest (c : DecoderClass) (H0 : History F) (log : List (Core.Move F × Option ℤ)) : Prop :=
  ∀ l g frame H H', l ++ [(.frame g frame, some (-2))] <+: log → Run (move c) H0 l H →
    move c (.frame g frame) H = some (some (-2), H') → H.SkipsOldest

end History

namespace Analysis

variable {F D : Type} [Doubles D] [Floats F D] [CFFTOoura F]

/-! ## The search of a single mode -/

section Search

variable {n : ℕ} {A : Analysis F} {frame : ℕ → F}

/-- The state in which a single-mode decoder looks for the start tokens. -/
def lookingAt (frame : ℕ → F) (A : Analysis F) : Analysis F := looking 0 (storeSpectrum frame A)

theorem lookingAt_size : (lookingAt frame A).mSizeBlockCircularBuffer = A.mSizeBlockCircularBuffer :=
  looking_size 0 _

theorem lookingAt_write : (lookingAt frame A).mWritePosInBlockCircularBuffer =
    (A.mWritePosInBlockCircularBuffer + 1) % A.mSizeBlockCircularBuffer := rfl

theorem lookingAt_read : ((lookingAt frame A).lane 0).mReadPosInBlockCircularBuffer =
    (A.lane 0).mReadPosInBlockCircularBuffer := by
  simp only [lookingAt, looking_lane, rankTones, setLane, Function.update_self]
  rfl

omit [Doubles D] [Floats F D] [CFFTOoura F] in
theorem advanceReadPos_size (t : ℕ) (A : Analysis F) :
    (advanceReadPos t A).mSizeBlockCircularBuffer = A.mSizeBlockCircularBuffer := rfl

omit [Doubles D] [Floats F D] [CFFTOoura F] in
theorem advanceReadPos_write (t : ℕ) (A : Analysis F) :
    (advanceReadPos t A).mWritePosInBlockCircularBuffer = A.mWritePosInBlockCircularBuffer := rfl

omit [Doubles D] [Floats F D] [CFFTOoura F] in
theorem advanceReadPos_read (t : ℕ) (A : Analysis F) : ((advanceReadPos t A).lane t).mReadPosInBlockCircularBuffer =
    ((A.lane t).mReadPosInBlockCircularBuffer + 1) % A.mSizeBlockCircularBuffer := by
  simp only [advanceReadPos, setLane, Function.update_self]

omit [Doubles D] [CFFTOoura F] in
theorem resetConfidence_size (t : ℕ) (A : Analysis F) :
    (Core.resetConfidence (beginMessage t A)).mSizeBlockCircularBuffer = A.mSizeBlockCircularBuffer := rfl

/-- A full window is looked at once; the read position moves on where no start is found. -/
theorem search_full (hsize : A.mSizeBlockCircularBuffer = n)
    (hread : (A.lane 0).mReadPosInBlockCircularBuffer < n)
    (hfull : filled n (A.lane 0).mReadPosInBlockCircularBuffer ((A.mWritePosInBlockCircularBuffer + 1) % n) + 1 = n) :
    A.AnalyzeStartTokens 1 frame = if startFound 0 (lookingAt frame A) then (1, beginMessage 0 (lookingAt frame A))
      else (0, advanceReadPos 0 (lookingAt frame A)) := by
  have hn : 0 < n := by omega
  have hwrite : (lookingAt frame A).mWritePosInBlockCircularBuffer = (A.mWritePosInBlockCircularBuffer + 1) % n := by
    rw [lookingAt_write, hsize]
  have hsize : (lookingAt frame A).mSizeBlockCircularBuffer = n := lookingAt_size.trans hsize
  have hmode : searchMode 0 (storeSpectrum frame A) =
      if startFound 0 (lookingAt frame A) then (true, beginMessage 0 (lookingAt frame A))
      else (false, advanceReadPos 0 (lookingAt frame A)) :=
    searchLoop_full (t := 0) (A := lookingAt frame A) (by rwa [hsize]) (by rwa [hsize, lookingAt_read])
      (by rw [hsize, hwrite]; exact Nat.mod_lt _ hn)
      (by rw [getSizeFilledBlockCircularBuffer, hsize, hwrite, lookingAt_read]; exact hfull)
  unfold AnalyzeStartTokens searchModes
  rw [hmode]
  by_cases hfound : startFound 0 (lookingAt frame A) = true
  · simp [hfound]
  · simp [hfound, searchModes]

/-- A window that is not full is not looked at. -/
theorem search_short (hsize : A.mSizeBlockCircularBuffer = n)
    (hshort : filled n (A.lane 0).mReadPosInBlockCircularBuffer ((A.mWritePosInBlockCircularBuffer + 1) % n) + 1 < n) :
    A.AnalyzeStartTokens 1 frame = (0, lookingAt frame A) := by
  have hwrite : (lookingAt frame A).mWritePosInBlockCircularBuffer = (A.mWritePosInBlockCircularBuffer + 1) % n := by
    rw [lookingAt_write, hsize]
  have hsize : (lookingAt frame A).mSizeBlockCircularBuffer = n := lookingAt_size.trans hsize
  have hmode : searchMode 0 (storeSpectrum frame A) = (false, lookingAt frame A) := by
    rw [searchMode_eq]
    refine searchLoop_short ?_
    rw [getSizeFilledBlockCircularBuffer]
    show filled (lookingAt frame A).mSizeBlockCircularBuffer _ (lookingAt frame A).mWritePosInBlockCircularBuffer + 1 <
      (lookingAt frame A).mSizeBlockCircularBuffer
    rw [hsize, hwrite]
    exact hshort
  unfold AnalyzeStartTokens searchModes
  rw [hmode]
  simp [searchModes]

end Search

end Analysis

namespace History

open Analysis

variable {F D : Type} [Doubles D] [Floats F D] [CFFTOoura F]

/-! ## The invariant -/

/-- In a search the unread slots were noted in their order, but that a message of an odd number of odd blocks leaves the
read position one ahead; in a message the positions are those of its blocks. -/
structure Ready (n : ℕ) (H : History F) : Prop where
  size : H.core.analysis.mSizeBlockCircularBuffer = n
  write : H.core.analysis.mWritePosInBlockCircularBuffer < n
  bound : ∀ pos, H.stamps 0 pos ≤ H.frames
  search : H.core.mDecoding = 0 →
    (H.core.analysis.lane 0).mReadPosInBlockCircularBuffer = (H.core.analysis.mWritePosInBlockCircularBuffer + 1) % n ∨
      ∃ a b, (H.core.analysis.lane 0).mReadPosInBlockCircularBuffer = a % n ∧
        H.core.analysis.mWritePosInBlockCircularBuffer = b % n ∧ a ≤ b ∧ b + 2 ≤ a + n ∧ Ascending n (H.stamps 0) a b
  message : H.core.mDecoding ≠ 0 → 1 ≤ H.core.mDecoding ∧ ∃ E m k, Placed n E 0 m k H.core.analysis ∧
    (18 < H.core.mDecoding → m ≤ Core.blockStart n k)

/-- The stamps of the first mode once the next frame is noted. -/
def stamped (frame : ℕ → F) (H : History F) : ℕ → ℕ :=
  stampMode (H.frames + 1) 0 (storeSpectrum frame H.core.analysis) H.stamps 0

section Step

variable {n : ℕ} {H H' : History F} {g : Globals F} {frame : ℕ → F} {r : Option ℤ} {c : DecoderClass}

omit [CFFTOoura F] in
theorem stampModes_one (k t : ℕ) (A : Analysis F) (stamps : ℕ → ℕ → ℕ) :
    stampModes k 1 t A stamps = stampMode k t A stamps := by
  unfold stampModes
  rcases searchMode t A with ⟨found, B⟩
  cases found with
  | true => rfl
  | false => rfl

omit [Doubles D] [Floats F D] [CFFTOoura F] in
theorem lanes_single (hone : c ≠ .AllMultiTone) : c.lanes = 1 := by
  cases c <;> first | rfl | exact absurd rfl hone

omit [Doubles D] [Floats F D] [CFFTOoura F] in
theorem tokenLane_single (hone : c ≠ .AllMultiTone) (C : Core F) : Core.tokenLane c C = 0 := if_neg hone

/-- A frame that is searched is stamped, and no other. -/
theorem move_stamps (hone : c ≠ .AllMultiTone) (hmove : move c (.frame g frame) H = some (r, H')) :
    H'.frames = H.frames + 1 ∧ H'.stamps 0 = if H.core.mDecoding = 0 then H.stamped frame else H.stamps 0 := by
  obtain ⟨-, hframes, hstamps, -⟩ := move_frame hmove
  rw [lanes_single hone, stampModes_one] at hstamps
  refine ⟨hframes, ?_⟩
  rw [hstamps]
  split <;> rfl

omit [Doubles D] in
theorem Ready.stamped (h : Ready n H) (pos : ℕ) : H.stamped frame pos ≤ H.frames + 1 := by
  rw [History.stamped, stampMode, set2_apply]
  split
  · exact le_refl _
  · exact Nat.le_succ_of_le (h.bound pos)

omit [Doubles D] in
/-- The unread slots once the next frame is stored: none, or those from `a` to `b`. -/
theorem Ready.window (h : Ready n H) (h0 : H.core.mDecoding = 0) (frame : ℕ → F) :
    (H.core.analysis.lane 0).mReadPosInBlockCircularBuffer = (H.core.analysis.mWritePosInBlockCircularBuffer + 1) % n ∧
      filled n (H.core.analysis.lane 0).mReadPosInBlockCircularBuffer
        ((H.core.analysis.mWritePosInBlockCircularBuffer + 1) % n) = 0 ∨
    ∃ a b, (H.core.analysis.lane 0).mReadPosInBlockCircularBuffer = a % n ∧
      H.core.analysis.mWritePosInBlockCircularBuffer = b % n ∧ a ≤ b ∧ b + 2 ≤ a + n ∧
      filled n (H.core.analysis.lane 0).mReadPosInBlockCircularBuffer
        ((H.core.analysis.mWritePosInBlockCircularBuffer + 1) % n) = b + 1 - a ∧
      Ascending n (H.stamped frame) a (b + 1) := by
  rcases h.search h0 with hread | ⟨a, b, hread, hwrite, hab, hroom, hasc⟩
  · -- the write position catches up with the read position: nothing is unread
    refine Or.inl ⟨hread, ?_⟩
    rw [hread]
    simp [filled]
  · refine Or.inr ⟨a, b, hread, hwrite, hab, hroom, ?_, ?_⟩
    · rw [hread, hwrite, Nat.mod_add_mod, filled_mod (by omega) (by omega)]
    · have hput : H.stamped frame = put n (H.stamps 0) b (H.frames + 1) := by
        have hpos : (storeSpectrum frame H.core.analysis).mWritePosInBlockCircularBuffer %
            (storeSpectrum frame H.core.analysis).mSizeBlockCircularBuffer = b % n := by
          show H.core.analysis.mWritePosInBlockCircularBuffer % H.core.analysis.mSizeBlockCircularBuffer = b % n
          rw [h.size, hwrite, Nat.mod_mod]
        simp only [History.stamped, stampMode, set2, hpos, Function.update_self, put]
      rw [hput]
      exact hasc.write (by omega) fun i => Nat.lt_succ_of_le (h.bound i)

/-- A frame that is searched in vain. -/
theorem Ready.missed (h : Ready n H) (hn : 2 ≤ n) (h0 : H.core.mDecoding = 0)
    (hret : (H.core.analysis.AnalyzeStartTokens 1 frame).1 = 0)
    (hcore : H'.core = { H.core with analysis := (H.core.analysis.AnalyzeStartTokens 1 frame).2 })
    (hframes : H'.frames = H.frames + 1) (hstamps : H'.stamps 0 = H.stamped frame) : Ready n H' := by
  have hanalysis : H'.core.analysis = (H.core.analysis.AnalyzeStartTokens 1 frame).2 := by rw [hcore]
  have hd : H'.core.mDecoding = 0 := by
    rw [hcore]
    exact h0
  have hsize : (lookingAt frame H.core.analysis).mSizeBlockCircularBuffer = n := lookingAt_size.trans h.size
  have hbound : ∀ pos, H'.stamps 0 pos ≤ H'.frames := by
    intro pos
    rw [hstamps, hframes]
    exact h.stamped pos
  rcases h.window h0 frame with ⟨hread, hempty⟩ | ⟨a, b, hread, hwrite, hab, hroom, hfilled, hasc⟩
  · rw [search_short h.size (by omega)] at hanalysis
    have hwrite' : H'.core.analysis.mWritePosInBlockCircularBuffer =
        (H.core.analysis.mWritePosInBlockCircularBuffer + 1) % n := by
      rw [hanalysis, lookingAt_write, h.size]
    have hread' : (H'.core.analysis.lane 0).mReadPosInBlockCircularBuffer =
        (H.core.analysis.mWritePosInBlockCircularBuffer + 1) % n := by
      rw [hanalysis, lookingAt_read, hread]
    refine ⟨?_, ?_, hbound, fun _ => Or.inr ⟨_, _, hread', hwrite', le_refl _, by omega, ascending_empty _ _ _⟩,
      fun hd' => absurd hd hd'⟩
    · rw [hanalysis, hsize]
    · rw [hwrite']
      exact Nat.mod_lt _ (by omega)
  · have hw : (lookingAt frame H.core.analysis).mWritePosInBlockCircularBuffer = (b + 1) % n := by
      rw [lookingAt_write, h.size, hwrite, Nat.mod_add_mod]
    by_cases hfull : b + 1 - a + 1 = n
    · have hr : (H.core.analysis.lane 0).mReadPosInBlockCircularBuffer < n := by
        rw [hread]
        exact Nat.mod_lt _ (by omega)
      rw [search_full h.size hr (by omega)] at hanalysis hret
      by_cases hfound : startFound 0 (lookingAt frame H.core.analysis) = true
      · rw [if_pos hfound] at hret
        exact absurd hret (by simp)
      · rw [if_neg hfound] at hanalysis
        have hwrite' : H'.core.analysis.mWritePosInBlockCircularBuffer = (b + 1) % n := by
          rw [hanalysis, advanceReadPos_write, hw]
        have hread' : (H'.core.analysis.lane 0).mReadPosInBlockCircularBuffer = (a + 1) % n := by
          rw [hanalysis, advanceReadPos_read, lookingAt_read, hsize, hread, Nat.mod_add_mod]
        refine ⟨?_, ?_, hbound, fun _ => Or.inr ⟨a + 1, b + 1, hread', hwrite', by omega, by omega, ?_⟩,
          fun hd' => absurd hd hd'⟩
        · rw [hanalysis, advanceReadPos_size, hsize]
        · rw [hwrite']
          exact Nat.mod_lt _ (by omega)
        · rw [hstamps]
          exact hasc.read
    · rw [search_short h.size (by omega)] at hanalysis
      have hwrite' : H'.core.analysis.mWritePosInBlockCircularBuffer = (b + 1) % n := by rw [hanalysis, hw]
      have hread' : (H'.core.analysis.lane 0).mReadPosInBlockCircularBuffer = a % n := by
        rw [hanalysis, lookingAt_read, hread]
      refine ⟨?_, ?_, hbound, fun _ => Or.inr ⟨a, b + 1, hread', hwrite', by omega, by omega, ?_⟩,
        fun hd' => absurd hd hd'⟩
      · rw [hanalysis, hsize]
      · rw [hwrite']
        exact Nat.mod_lt _ (by omega)
      · rw [hstamps]
        exact hasc

/-- A frame that completes the start tokens: the window was full and in order, up to its last slot. -/
theorem Ready.found (h : Ready n H) (hn : 2 ≤ n) (h0 : H.core.mDecoding = 0)
    (hret : (H.core.analysis.AnalyzeStartTokens 1 frame).1 = 1) :
    ∃ a b, (H.core.analysis.lane 0).mReadPosInBlockCircularBuffer = a % n ∧
      H.core.analysis.mWritePosInBlockCircularBuffer = b % n ∧ b + 2 = a + n ∧
      Ascending n (H.stamped frame) a (b + 1) ∧
      startFound 0 (lookingAt frame H.core.analysis) = true ∧
      (H.core.analysis.AnalyzeStartTokens 1 frame).2 = beginMessage 0 (lookingAt frame H.core.analysis) := by
  rcases h.window h0 frame with ⟨hread, hempty⟩ | ⟨a, b, hread, hwrite, hab, hroom, hfilled, hasc⟩
  · rw [search_short h.size (by omega)] at hret
    exact absurd hret (by simp)
  · by_cases hfull : b + 1 - a + 1 = n
    · have hr : (H.core.analysis.lane 0).mReadPosInBlockCircularBuffer < n := by
        rw [hread]
        exact Nat.mod_lt _ (by omega)
      rw [search_full h.size hr (by omega)] at hret ⊢
      by_cases hfound : startFound 0 (lookingAt frame H.core.analysis) = true
      · simp only [hfound, if_true]
        exact ⟨a, b, hread, hwrite, by omega, hasc, trivial, trivial⟩
      · simp only [hfound, Bool.false_eq_true, if_false] at hret
        exact absurd hret (by simp)
    · rw [search_short h.size (by omega)] at hret
      exact absurd hret (by simp)

/-- A frame of a message. -/
theorem step_placed (hc : c.isMultiTone = true) (hone : c ≠ .AllMultiTone) (hn : 2 ≤ n) {C C' : Core F}
    (h : Core.step c g frame C = (r, C')) (h1 : 1 ≤ C.mDecoding) (h18 : C.mDecoding ≤ 18) {E m k : ℕ}
    (hplaced : Placed n E 0 m k C.analysis) : 1 ≤ C'.mDecoding ∧ ∃ m k, Placed n E 0 m k C'.analysis ∧
      (18 < C'.mDecoding → m ≤ Core.blockStart n k) := by
  have htoken := hplaced.token hn g (Core.tokenMode c C) C.mDecoding frame
  have hA : C.AnalyzeToken c g frame = C.analysis.AnalyzeToken g (Core.tokenMode c C) C.mDecoding 0 frame := by
    rw [Core.AnalyzeToken_multiTone hc, tokenLane_single hone]
  have hr : r ≠ some (-3) := by
    have hout := Core.step_outcome c g frame C
    rw [h] at hout
    cases hout with
    | quiet => simp
    | start => simp
    | token _ _ hr =>
      intro heq
      have := Option.some.inj heq
      omega
    | finished hd => omega
  obtain ⟨h1', -, hstate⟩ := Core.step_message h h1 hr
  rw [hA] at hstate
  by_cases hlast : m + 1 = Core.blockStart n k + n / 2
  · rw [if_pos hlast] at htoken
    have hnext := (blockStart_succ n k).1
    refine ⟨h1', m + 1, k + 1, ?_, fun _ => by omega⟩
    rw [hstate]
    exact htoken.2
  · rw [if_neg hlast] at htoken
    obtain ⟨hret, htoken⟩ := htoken
    rw [hret] at hstate hA
    have hd : C'.mDecoding = C.mDecoding := by
      unfold Core.step at h
      rw [if_neg (by omega), if_pos ⟨by omega, h18⟩, hA] at h
      obtain ⟨-, rfl⟩ := Prod.mk.inj h
      rfl
    refine ⟨h1', m + 1, k, ?_, fun h => by omega⟩
    rw [hstate]
    exact htoken

/-- What the search of a single mode returns. -/
theorem search_result (hc : c.isMultiTone = true) (hone : c ≠ .AllMultiTone) {C : Core F} {ret : ℤ} {A : Analysis F}
    (h : C.AnalyzeStartTokens c frame = (ret, A)) : C.analysis.AnalyzeStartTokens 1 frame = (ret, A) ∧
      (Core.isStart c ret = true → ret = 1) ∧ (Core.isStart c ret ≠ true → ret = 0) := by
  rw [Core.AnalyzeStartTokens_multiTone hc, lanes_single hone] at h
  have hrange := searchModes_range 1 0 (storeSpectrum frame C.analysis)
  rw [show searchModes 1 0 (storeSpectrum frame C.analysis) = (ret, A) from h] at hrange
  have hstart : Core.isStart c ret = decide (ret = 1) := by
    cases c <;> first | rfl | exact absurd rfl hone
  refine ⟨h, fun hret => ?_, fun hret => ?_⟩
  · rw [hstart] at hret
    exact of_decide_eq_true hret
  · rw [hstart] at hret
    have hret : ¬ ret = 1 := fun heq => hret (decide_eq_true heq)
    simp only [Nat.cast_zero, Nat.cast_one] at hrange
    omega

/-- The frame with which a message begins. -/
theorem Ready.begins (hc : c.isMultiTone = true) (h : Ready n H) (hn : 2 ≤ n) (h0 : H.core.mDecoding = 0)
    {A : Analysis F} (hA : H.core.analysis.AnalyzeStartTokens 1 frame = (1, A)) (hcore : H'.core = H.core.begin c 1 A)
    (hframes : H'.frames = H.frames + 1) (hstamps : H'.stamps 0 = H.stamped frame) : Ready n H' := by
  obtain ⟨a, b, -, hwrite, -, -, -, hbegin⟩ := h.found hn h0 (congrArg Prod.fst hA)
  rw [hA] at hbegin
  have hbegins : MessageBegins 0 (Core.resetConfidence A) := messageBegins_of_found (m := 1) hA
  have hsize : (Core.resetConfidence A).mSizeBlockCircularBuffer = n := by
    rw [show A = _ from hbegin, resetConfidence_size, lookingAt_size, h.size]
  have hplaced := hbegins.placed (by omega)
  rw [hsize] at hplaced
  have hanalysis : H'.core.analysis = Core.resetConfidence A := by
    rw [hcore, Core.begin]
    exact if_pos hc
  have hd : H'.core.mDecoding = 1 := by
    rw [hcore]
    rfl
  constructor
  · rw [hanalysis, hsize]
  · rw [hanalysis, hplaced.write]
    exact Nat.mod_lt _ (by omega)
  · intro pos
    rw [hstamps, hframes]
    exact h.stamped pos
  · intro hd'
    omega
  · intro _
    refine ⟨by omega, (Core.resetConfidence A).mWritePosInBlockCircularBuffer, 0, 0, ?_, fun h18 => by omega⟩
    rw [hanalysis]
    exact hplaced

omit [Doubles D] [CFFTOoura F] in
/-- The frame with which a message ends. -/
theorem Ready.ends (hc : c.isMultiTone = true) (h : Ready n H) (hn : 2 ≤ n) (h18 : 18 < H.core.mDecoding)
    (hcore : H'.core = H.core.finish c) (hframes : H'.frames = H.frames + 1) (hstamps : H'.stamps 0 = H.stamps 0) :
    Ready n H' := by
  obtain ⟨-, E, m, k, hplaced, hlast⟩ := h.message (by omega)
  have hanalysis : H'.core.analysis = Core.finishConfidence H.core.analysis := by
    rw [hcore, Core.finish]
    exact if_pos hc
  have hd : H'.core.mDecoding = 0 := by
    rw [hcore]
    rfl
  have hm := hlast h18
  have hbegun := hplaced.begun
  have hread : (H'.core.analysis.lane 0).mReadPosInBlockCircularBuffer = (E + Core.blockStart n k) % n := by
    rw [hanalysis]
    exact hplaced.read
  have hwrite : H'.core.analysis.mWritePosInBlockCircularBuffer = (E + m) % n := by
    rw [hanalysis]
    exact hplaced.write
  constructor
  · rw [hanalysis]
    exact h.size
  · rw [hanalysis]
    exact h.write
  · intro pos
    rw [hstamps, hframes]
    exact Nat.le_succ_of_le (h.bound pos)
  · intro _
    by_cases heq : Core.blockStart n k = m
    · rw [heq] at hread
      exact Or.inr ⟨E + m, E + m, hread, hwrite, le_refl _, by omega, ascending_empty _ _ _⟩
    · left
      rw [hread, hwrite, Nat.mod_add_mod, show Core.blockStart n k = m + 1 by omega, Nat.add_assoc]
  · intro hd'
    exact absurd hd hd'

theorem Ready.step (hc : c.isMultiTone = true) (hone : c ≠ .AllMultiTone) (hn : 2 ≤ n) (h : Ready n H)
    {m : Core.Move F} (hmove : move c m H = some (r, H')) : Ready n H' := by
  cases m with
  | poll =>
    obtain ⟨rfl, rfl⟩ := Prod.mk.inj (Option.some.inj hmove)
    exact ⟨h.size, h.write, h.bound, h.search, h.message⟩
  | frame g frame =>
    have hstep := (move_frame hmove).1
    obtain ⟨hframes, hstamps⟩ := move_stamps hone hmove
    by_cases h0 : H.core.mDecoding = 0
    · rw [if_pos h0] at hstamps
      rcases Core.step_cases hstep with ⟨-, ret, A, hA, hcase⟩ | ⟨hd, -⟩ | ⟨hd, -⟩
      · obtain ⟨hA, hstart, hnone⟩ := search_result hc hone hA
        by_cases hret : Core.isStart c ret = true
        · rw [if_pos hret] at hcase
          obtain rfl := hstart hret
          exact h.begins hc hn h0 hA hcase.2 hframes hstamps
        · rw [if_neg hret] at hcase
          obtain rfl := hnone hret
          refine h.missed hn h0 (congrArg Prod.fst hA) ?_ hframes hstamps
          rw [hA]
          exact hcase.2
      · exact absurd h0 hd
      · exact absurd h0 hd
    · rw [if_neg h0] at hstamps
      obtain ⟨h1, E, m, k, hplaced, -⟩ := h.message h0
      by_cases h18 : H.core.mDecoding ≤ 18
      · obtain ⟨h1', m', k', hplaced', hlast'⟩ := step_placed hc hone hn hstep h1 h18 hplaced
        refine ⟨hplaced'.size, ?_, ?_, fun hd => by omega, fun _ => ⟨h1', E, m', k', hplaced', hlast'⟩⟩
        · rw [hplaced'.write]
          exact Nat.mod_lt _ (by omega)
        · intro pos
          rw [hstamps, hframes]
          exact Nat.le_succ_of_le (h.bound pos)
      · rw [Core.step_finished c g frame (by omega)] at hstep
        exact h.ends hc hn (by omega) (Prod.mk.inj hstep).2.symm hframes hstamps

end Step

/-! ## Runs -/

section Runs

variable {n : ℕ} {c : DecoderClass} {H H' : History F} {g : Globals F} {frame : ℕ → F}

omit [CFFTOoura F] in
theorem ready_new (mem : Decoder F) (memRS : ReedSolomon) (c : DecoderClass) (g : Globals F) (samplingRate : F)
    (windowSize : ℕ) {C : Core F} (hC : C = (Decoder.new mem memRS c g samplingRate windowSize).core)
    (hn : 2 ≤ C.analysis.mSizeBlockCircularBuffer) : Ready C.analysis.mSizeBlockCircularBuffer (new C) := by
  have hwrite : C.analysis.mWritePosInBlockCircularBuffer = 0 := by
    rw [hC]
    rfl
  have hread : (C.analysis.lane 0).mReadPosInBlockCircularBuffer = 0 := by
    have hlane : 0 < c.lanes := by cases c <;> exact Nat.zero_lt_succ _
    rw [hC]
    simp only [Decoder.new, Decoder.newAnalysis, if_pos hlane]
    rfl
  constructor
  · rfl
  · show C.analysis.mWritePosInBlockCircularBuffer < _
    omega
  · exact fun _ => le_refl 0
  · intro _
    refine Or.inr ⟨0, 0, ?_, ?_, le_refl 0, by omega, ascending_empty _ _ _⟩
    · rw [Nat.zero_mod]
      exact hread
    · rw [Nat.zero_mod]
      exact hwrite
  · intro hd
    have h0 : C.mDecoding = 0 := by
      rw [hC]
      rfl
    exact absurd h0 hd

theorem run_ready (hc : c.isMultiTone = true) (hone : c ≠ .AllMultiTone) (hn : 2 ≤ n) {H0 : History F} (h0 : Ready n H0)
    {log : List (Core.Move F × Option ℤ)} (h : Run (move c) H0 log H) : Ready n H :=
  h.rule (fun _ H => Ready n H) h0 fun _ _ _ _ _ hr hmove => hr.step hc hone hn hmove

/-- What a frame does with which a start is reported. -/
theorem move_starts (hc : c.isMultiTone = true) (hone : c ≠ .AllMultiTone)
    (hmove : move c (.frame g frame) H = some (some (-2), H')) :
    H.core.mDecoding = 0 ∧ ∃ A, H.core.analysis.AnalyzeStartTokens 1 frame = (1, A) ∧
      H'.core.analysis = Core.resetConfidence A := by
  have hstep := (move_frame hmove).1
  have h0 : H.core.mDecoding = 0 := by
    have hout := Core.step_outcome c g frame H.core
    rw [hstep] at hout
    generalize hr : some (-2 : ℤ) = r at hout
    cases hout with
    | quiet => exact absurd hr (by simp)
    | start h0 => exact h0
    | token _ _ hrange =>
      have := Option.some.inj hr
      omega
    | finished => exact absurd hr (by simp)
  refine ⟨h0, ?_⟩
  rcases Core.step_cases hstep with ⟨-, ret, A, hA, hcase⟩ | ⟨hd, -⟩ | ⟨hd, -⟩
  · obtain ⟨hA, hstart, -⟩ := search_result hc hone hA
    by_cases hret : Core.isStart c ret = true
    · rw [if_pos hret] at hcase
      obtain rfl := hstart hret
      refine ⟨A, hA, ?_⟩
      rw [hcase.2, Core.begin]
      exact if_pos hc
    · rw [if_neg hret] at hcase
      exact absurd hcase.1 (by simp)
  · exact absurd h0 hd
  · exact absurd h0 hd

/-- The window of a start is full. -/
theorem Ready.full (hc : c.isMultiTone = true) (hone : c ≠ .AllMultiTone) (hn : 2 ≤ n) (h : Ready n H)
    (hmove : move c (.frame g frame) H = some (some (-2), H')) : Full H.core.analysis 0 := by
  obtain ⟨h0, A, hA, -⟩ := move_starts hc hone hmove
  obtain ⟨a, b, hread, hwrite, hab, -⟩ := h.found hn h0 (congrArg Prod.fst hA)
  unfold Full
  rw [h.size, hread, hwrite, Nat.mod_add_mod, filled_mod (by omega) (by omega)]
  omega

omit [Doubles D] [Floats F D] [CFFTOoura F] in
/-- A window that holds the start tokens without its last slot holds them whatever is noted there. -/
theorem opens_of_unread {mnToleranceFrames : ℤ} {w w' : ℕ → ℤ × ℤ} (hn : 2 ≤ n) (h : Opens n mnToleranceFrames w)
    (hlast : ¬ Counted n (n - 1) (w (n - 1))) (heq : ∀ i < n - 1, w' i = w i) : Opens n mnToleranceFrames w' := by
  obtain ⟨hfirst, hsecond⟩ := h
  constructor
  · have hsame : (Finset.Ico 0 (n / 2)).filter (fun i => (w i).1 = idxTonesFrontDoorToken1.1) =
        (Finset.Ico 0 (n / 2)).filter fun i => (w' i).1 = idxTonesFrontDoorToken1.1 :=
      Finset.filter_congr fun i hi => by
        have := (Finset.mem_Ico.1 hi).2
        rw [heq i (by omega)]
    rwa [← hsame]
  · refine hsecond.trans ?_
    have hsub : ((Finset.Ico (n / 2) n).filter fun i =>
        (w i).1 = idxTonesFrontDoorToken2.1 ∨ (w i).2 = idxTonesFrontDoorToken2.1) ⊆
        (Finset.Ico (n / 2) n).filter fun i =>
          (w' i).1 = idxTonesFrontDoorToken2.1 ∨ (w' i).2 = idxTonesFrontDoorToken2.1 := by
      intro i hi
      obtain ⟨hmem, hnote⟩ := Finset.mem_filter.1 hi
      have hrange := Finset.mem_Ico.1 hmem
      have hne : i ≠ n - 1 := by
        rintro rfl
        exact hlast (Or.inr ⟨hrange.1, hnote⟩)
      refine Finset.mem_filter.2 ⟨hmem, ?_⟩
      rw [heq i (by omega)]
      exact hnote
    exact_mod_cast Finset.card_le_card hsub

/-- A start is found in order exactly when the oldest note of the ring does not count. -/
theorem Ready.inOrder_iff (hc : c.isMultiTone = true) (hone : c ≠ .AllMultiTone) (hn : 2 ≤ n) (h : Ready n H)
    (hmove : move c (.frame g frame) H = some (some (-2), H')) : InOrder H H' ↔ H.SkipsOldest := by
  obtain ⟨h0, A, hA, hanalysis⟩ := move_starts hc hone hmove
  obtain ⟨a, b, hread, hwrite, hab, hasc, hfound, hbegin⟩ := h.found hn h0 (congrArg Prod.fst hA)
  rw [hA] at hbegin
  obtain ⟨-, hstamps⟩ := move_stamps hone hmove
  rw [if_pos h0] at hstamps
  have hpos : ∀ i, H.core.analysis.blockPos 0 i = (a + i) % n := by
    intro i
    rw [blockPos, h.size, hread, Nat.mod_add_mod]
  have hunread : ∀ pos, H.Unread pos ↔ ∃ j < n - 1, pos = (a + j) % n := by
    intro pos
    have hfilled : filled n (a % n) ((b % n + 1) % n) = n - 1 := by
      rw [Nat.mod_add_mod, filled_mod (by omega) (by omega)]
      omega
    unfold Unread
    rw [h.size, hread, hwrite, hfilled]
    simp only [hpos]
  have hnotes : notes (H'.core.analysis.lane 0) = notes ((lookingAt frame H.core.analysis).lane 0) := by
    rw [hanalysis, show A = _ from hbegin]
    exact setRead_notes _ 0 0 _
  -- the last slot of the window is the one behind the slot of this frame, which the search does not touch
  have hlast : notes (H'.core.analysis.lane 0) ((a + (n - 1)) % n) = notes (H.core.analysis.lane 0)
      ((H.core.analysis.mWritePosInBlockCircularBuffer + 1) % n) := by
    have hslot : (a + (n - 1)) % n = (H.core.analysis.mWritePosInBlockCircularBuffer + 1) % n := by
      rw [hwrite, Nat.mod_add_mod, show a + (n - 1) = b + 1 by omega]
    have hne : (H.core.analysis.mWritePosInBlockCircularBuffer + 1) % n ≠
        H.core.analysis.mWritePosInBlockCircularBuffer % H.core.analysis.mSizeBlockCircularBuffer := by
      rw [h.size]
      exact (mod_ne (le_refl _) (Nat.lt_succ_self _) (by omega)).symm
    have hkeep := search_notes frame H.core.analysis _ hne
    rw [hA] at hkeep
    rw [hslot, ← hkeep, hanalysis]
    rfl
  have hsize := h.size
  have hskips : H.SkipsOldest ↔ ¬ Counted n (n - 1) (notes (H'.core.analysis.lane 0) ((a + (n - 1)) % n)) := by
    unfold SkipsOldest
    rw [hsize, hlast]
  rw [hskips]
  constructor
  · intro horder hcounted
    have hcounted' := horder.unread (n - 1) (by rw [hsize]; omega)
    rw [hsize, hpos, hunread] at hcounted'
    obtain ⟨j, hj, heq⟩ := hcounted' hcounted
    exact mod_ne (a := a) (by omega) (show a + j < a + (n - 1) by omega) (by omega) heq.symm
  · intro hskip
    have hcount : ∀ i < n, Counted n i (notes (H'.core.analysis.lane 0) ((a + i) % n)) → i < n - 1 := by
      intro i hi hcounted
      by_contra hge
      obtain rfl : i = n - 1 := by omega
      exact hskip hcounted
    constructor
    · intro i j hi hj hjn hci hcj
      rw [hsize] at hi hj hjn hci hcj
      rw [hpos] at hci hcj ⊢
      rw [hpos, hstamps]
      have hj' := hcount j hjn hcj
      exact hasc (a + i) (a + j) (by omega) (by omega) (by omega)
    · intro i hi hci
      rw [hsize] at hi hci
      rw [hpos] at hci ⊢
      exact (hunread _).2 ⟨i, hcount i hi hci, rfl⟩
    · intro w hw
      rw [startFound_iff] at hfound
      have hwindow : Opens n H.core.analysis.mnToleranceFrames fun i =>
          notes (H'.core.analysis.lane 0) ((a + i) % n) := by
        have htolerance : (lookingAt frame H.core.analysis).mnToleranceFrames = H.core.analysis.mnToleranceFrames :=
          looking_tolerance 0 _
        rw [lookingAt_size, hsize, htolerance, ← hnotes] at hfound
        refine (Opens.congr fun i _ => ?_).1 hfound
        rw [blockPos, lookingAt_size, lookingAt_read, hsize, hread, Nat.mod_add_mod]
      rw [hsize]
      refine opens_of_unread hn hwindow hskip fun i hi => ?_
      rw [← hpos i]
      refine hw i (by rw [hsize]; omega) ?_
      rw [hpos]
      exact (hunread _).2 ⟨i, hi, rfl⟩

end Runs

/-! ## The chord -/

/-- The first 34 frames of a sound that starts messages: nothing is found yet, and the last slot of the ring is as the
constructor left it. -/
theorem run_waiting {rank : ℕ → ℕ → ℕ} (hrank : Starts rank) {log : List (Core.Move ℝ × Option ℤ)} {C : Core ℝ}
    (h : Run (Core.move .AudibleMultiTone) Decoder.audible.core log C)
    (hs : ∀ e ∈ log, ∃ g frame, e.1 = .frame g frame ∧ Sounds rank frame) (hlen : log.length ≤ 34) :
    Core.Waiting rank 0 log.length C ∧ notes (C.analysis.lane 0) 35 = (-1, -1) := by
  refine h.rule (fun log C => (∀ e ∈ log, ∃ g frame, e.1 = .frame g frame ∧ Sounds rank frame) → log.length ≤ 34 →
    Core.Waiting rank 0 log.length C ∧ notes (C.analysis.lane 0) 35 = (-1, -1))
    (fun _ _ => ⟨Decoder.audible_waiting rank, ?_⟩) ?_ hs hlen
  · show (if 35 < Decoder.audible.core.analysis.mSizeBlockCircularBuffer then (-1 : ℤ) else _,
      if 35 < Decoder.audible.core.analysis.mSizeBlockCircularBuffer then (-1 : ℤ) else _) = _
    rw [Decoder.audible_size]
    rfl
  · rintro log C m r C' ih hmove hs hlen
    rw [List.length_append, List.length_singleton] at hlen ⊢
    obtain ⟨hwait, hnote⟩ := ih (fun e he => hs e (List.mem_append_left _ he)) (by omega)
    obtain ⟨g, frame, rfl, hsound⟩ := hs (m, r) (List.mem_append_right _ (List.mem_singleton_self _))
    obtain ⟨C'', hC, hwait'⟩ := hwait.step (g := g) hrank (by omega) hsound
    obtain ⟨rfl, rfl⟩ := Prod.mk.inj ((Option.some.inj hmove).symm.trans hC)
    exact ⟨hwait', (hwait.notes_step hC (by omega)).trans hnote⟩

theorem audible_ready {log : List (Core.Move ℝ × Option ℤ)} {H : History ℝ}
    (h : Run (move .AudibleMultiTone) (new Decoder.audible.core) log H) :
    Ready Decoder.audible.core.analysis.mSizeBlockCircularBuffer H := by
  have hn : 2 ≤ Decoder.audible.core.analysis.mSizeBlockCircularBuffer := by
    rw [Decoder.audible_size]
    decide
  exact run_ready rfl (by decide) hn (ready_new default default .AudibleMultiTone initial 44100 2048 rfl hn) h

/-- The chord, for as long as the audible decoder takes to find its start tokens twice: with the second start the note
of the last frame of the first search counts. -/
theorem chord_twice : ∃ (log : List (Core.Move ℝ × Option ℤ)) (H H' : History ℝ),
    Run (move .AudibleMultiTone) (new Decoder.audible.core) log H ∧
      log.map Prod.fst = (List.range 394).map (fun k =>
        .frame initial (FrameBuffer.window 2048 256 (fun _ => 0) (chord 267) k)) ∧
      move .AudibleMultiTone (.frame initial (FrameBuffer.window 2048 256 (fun _ => 0) (chord 267) 394)) H =
        some (some (-2), H') ∧ ¬ InOrder H H' := by
  have hsound := chord_sounds (d := 267) (by decide) (by decide) (by decide) (fun _ => 0)
  obtain ⟨log, C, T, -, hrun, hlog, hstage, -⟩ := Trace.stage_run chord_tokens.1 chord_tokens.2 hsound 394 le_rfl
  set frame := FrameBuffer.window 2048 256 (fun _ => 0) (chord 267) 394
  obtain ⟨hwait, -⟩ := hstage.second (by decide)
  obtain ⟨C', hC, -⟩ := hwait.start chord_tokens.1 (g := initial) (hsound 394)
  obtain ⟨H, hH, hcore⟩ := exists_run (c := .AudibleMultiTone) (H := new Decoder.audible.core) hrun
  obtain ⟨H', hmove⟩ : ∃ H', move .AudibleMultiTone (.frame initial frame) H = some (some (-2), H') := by
    unfold move
    rw [hcore, show Core.move .AudibleMultiTone (.frame initial frame) C = some (some (-2), C') from congrArg some hC]
    exact ⟨_, rfl⟩
  refine ⟨log, H, H', hH, hlog, hmove, fun horder => ?_⟩
  have hskips := ((audible_ready hH).inOrder_iff rfl (by decide) (by rw [Decoder.audible_size]; decide) hmove).1 horder
  have hsize : H.core.analysis.mSizeBlockCircularBuffer = 36 := by
    rw [hcore]
    exact hwait.searching.settings.size
  have hwrite : H.core.analysis.mWritePosInBlockCircularBuffer = 33 := by
    rw [hcore]
    exact hwait.searching.write
  have hnote : (notes (H.core.analysis.lane 0) 34).2 = 2 := by
    rw [hcore]
    exact hstage.note (by decide)
  unfold SkipsOldest at hskips
  rw [hsize, hwrite] at hskips
  exact hskips (Or.inr ⟨by decide, Or.inr hnote⟩)

section Starts

variable {c : DecoderClass}

/-- Over any run of a single-mode multi-tone decoder: while the oldest note of the ring never counts toward the second
start token when the window is full, every start is found in order; and all starts are found in order exactly when it
counts with none of them. -/
theorem window_in_order (hc : c.isMultiTone = true) (hone : c ≠ .AllMultiTone) (mem : Decoder F) (memRS : ReedSolomon)
    (g : Globals F) (samplingRate : F) (windowSize : ℕ)
    (hn : 2 ≤ (Decoder.new mem memRS c g samplingRate windowSize).core.analysis.mSizeBlockCircularBuffer)
    (log : List (Core.Move F × Option ℤ)) :
    (OldestNeverCounts c (new (Decoder.new mem memRS c g samplingRate windowSize).core) log →
      StartsInOrder c (new (Decoder.new mem memRS c g samplingRate windowSize).core) log) ∧
    (StartsInOrder c (new (Decoder.new mem memRS c g samplingRate windowSize).core) log ↔
      StartsSkipOldest c (new (Decoder.new mem memRS c g samplingRate windowSize).core) log) := by
  have hready : ∀ {l : List (Core.Move F × Option ℤ)} {H : History F},
      Run (move c) (new (Decoder.new mem memRS c g samplingRate windowSize).core) l H → Ready _ H := fun h =>
    run_ready hc hone hn (ready_new mem memRS c g samplingRate windowSize rfl hn) h
  have hiff : StartsInOrder c (new (Decoder.new mem memRS c g samplingRate windowSize).core) log ↔
      StartsSkipOldest c (new (Decoder.new mem memRS c g samplingRate windowSize).core) log := by
    constructor
    · intro h l g frame H H' hl hrun hmove
      exact ((hready hrun).inOrder_iff hc hone hn hmove).1 (h l g frame H H' hl hrun hmove)
    · intro h l g frame H H' hl hrun hmove
      exact ((hready hrun).inOrder_iff hc hone hn hmove).2 (h l g frame H H' hl hrun hmove)
  refine ⟨fun hno => hiff.2 ?_, hiff⟩
  intro l g frame H H' hl hrun hmove
  have h0 := (move_starts hc hone hmove).1
  exact hno l g frame _ H hl hrun h0 ((hready hrun).full hc hone hn hmove)

/-- The first start of the chord: the slot behind that of its last frame holds no note yet. -/
theorem window_in_order_chord : ∃ (log : List (Core.Move ℝ × Option ℤ)) (H H' : History ℝ),
    Run (move .AudibleMultiTone) (new Decoder.audible.core) log H ∧
      move .AudibleMultiTone (.frame initial (FrameBuffer.window 2048 256 (fun _ => 0) (chord 267) 34)) H =
        some (some (-2), H') ∧ InOrder H H' := by
  have hsound := chord_sounds (d := 267) (by decide) (by decide) (by decide) (fun _ => 0)
  obtain ⟨log, C, T, -, hrun, hlog, hstage, -⟩ := Trace.stage_run chord_tokens.1 chord_tokens.2 hsound 34 (by decide)
  obtain ⟨C', hC, -⟩ := (hstage.first (by decide)).start chord_tokens.1 (g := initial) (hsound 34)
  obtain ⟨H, hH, hcore⟩ := exists_run (c := .AudibleMultiTone) (H := new Decoder.audible.core) hrun
  set frame := FrameBuffer.window 2048 256 (fun _ => 0) (chord 267) 34
  obtain ⟨H', hmove⟩ : ∃ H', move .AudibleMultiTone (.frame initial frame) H = some (some (-2), H') := by
    unfold move
    rw [hcore, show Core.move .AudibleMultiTone (.frame initial frame) C = some (some (-2), C') from congrArg some hC]
    exact ⟨_, rfl⟩
  have hlength : log.length = 34 := by
    simpa using congrArg List.length hlog
  have hframes : ∀ e ∈ log, ∃ g frame, e.1 = .frame g frame ∧ Sounds (chordRank 267) frame := fun e he => by
    have hmem := List.mem_map_of_mem (f := Prod.fst) he
    rw [hlog] at hmem
    obtain ⟨k, -, hk⟩ := List.mem_map.1 hmem
    exact ⟨initial, _, hk.symm, hsound k⟩
  have hnever : OldestNeverCounts .AudibleMultiTone (new Decoder.audible.core)
      (log ++ [(.frame initial frame, some (-2))]) := by
    rintro l g frame1 r H1 hl hrun1 - hfull
    have hshort : l.length ≤ 34 := by
      have hle := hl.length_le
      rw [List.length_append, List.length_append, hlength] at hle
      exact Nat.le_of_succ_le_succ hle
    have hpart : l <+: log :=
      List.prefix_of_prefix_length_le ((List.prefix_append _ _).trans hl) (List.prefix_append _ _) (by omega)
    obtain ⟨hwait, hnote⟩ := run_waiting chord_tokens.1 (run_core hrun1)
      (fun e he => hframes e (hpart.subset he)) hshort
    have hwrite := hwait.searching.write
    unfold Full at hfull
    rw [hwait.searching.settings.size, hwait.searching.read, hwrite, filled] at hfull
    obtain heq : l.length = 34 := by
      split at hfull <;> omega
    unfold SkipsOldest
    rw [hwait.searching.settings.size, hwrite, heq, show (0 + 34) % 36 + 1 = 35 from rfl, show 35 % 36 = 35 from rfl,
      hnote]
    decide
  have hn : 2 ≤ Decoder.audible.core.analysis.mSizeBlockCircularBuffer := by
    rw [Decoder.audible_size]
    decide
  have hstarts := (window_in_order (c := .AudibleMultiTone) rfl (by decide) default default initial 44100 2048 hn _).1
    hnever
  exact ⟨log, H, H', hH, hmove, hstarts log _ _ H H' (List.prefix_refl _) hH hmove⟩

/-- The run of the chord, frame by frame: a start that is not in order. -/
theorem oldest_counted : ∃ (log : List (Core.Move ℝ × Option ℤ)) (H : History ℝ),
    Run (move .AudibleMultiTone) (new Decoder.audible.core) log H ∧
      log.map Prod.fst = (List.range 395).map (fun k =>
        .frame initial (FrameBuffer.window 2048 256 (fun _ => 0) (chord 267) k)) ∧
      ¬ StartsInOrder .AudibleMultiTone (new Decoder.audible.core) log := by
  obtain ⟨log, H, H', hrun, hlog, hmove, horder⟩ := chord_twice
  refine ⟨_, H', .call hrun hmove, ?_, fun hstarts => horder ?_⟩
  · rw [show 395 = 394 + 1 from rfl, List.range_succ (n := 394), List.map_append, List.map_append, hlog,
      List.map_singleton, List.map_singleton]
  · exact hstarts log _ _ H H' (List.prefix_refl _) hrun hmove

end Starts

end History

end Undertone
