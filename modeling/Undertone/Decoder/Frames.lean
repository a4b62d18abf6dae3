import Undertone.Lib.Loop
import Undertone.Lib.Ring

/-!
# The ring of samples

`DecodeAudioBuffer` of every decoder class writes the chunk it is given into a ring of `4 * mWindowSize` samples, and
then, as long as a window of samples is there, copies it out, moves on by `mHopSize` and hands it to the analysis; it
returns at the first result of the analysis.
-/

namespace Undertone

open CountedLoop RingBuffer

structure FrameBuffer (F : Type) where
  mReadPosInFrameCircularBuffer : ℕ
  mWritePosInFrameCircularBuffer : ℕ
  mCircularBufferFloat : ℕ → F
  mAnalBufferFloat : ℕ → F
  mWindowSize : ℕ
  mHopSize : ℕ
  deriving Inhabited

namespace FrameBuffer

variable {F σ τ : Type}

def mSizeFrameCircularBuffer (B : FrameBuffer F) : ℕ := B.mWindowSize * 4

def getSizeFilledFrameCircularBuffer (B : FrameBuffer F) : ℕ :=
  filled B.mSizeFrameCircularBuffer B.mReadPosInFrameCircularBuffer B.mWritePosInFrameCircularBuffer

/-- The loop that writes the chunk, and the new write position. -/
def write (audioBuffer : ℕ → F) (size : ℕ) (B : FrameBuffer F) : FrameBuffer F :=
  { B with
    mCircularBufferFloat := forUp 0 size (fun i cells =>
      put B.mSizeFrameCircularBuffer cells (i + B.mWritePosInFrameCircularBuffer) (audioBuffer i))
      B.mCircularBufferFloat
    mWritePosInFrameCircularBuffer := (size + B.mWritePosInFrameCircularBuffer) % B.mSizeFrameCircularBuffer }

/-- Copy the next window into `mAnalBufferFloat` and move the read position on. -/
def nextFrame (B : FrameBuffer F) : FrameBuffer F :=
  { B with
    mAnalBufferFloat := forUp 0 B.mWindowSize (fun i a => Function.update a i
      (get B.mSizeFrameCircularBuffer B.mCircularBufferFloat (i + B.mReadPosInFrameCircularBuffer)))
      B.mAnalBufferFloat
    mReadPosInFrameCircularBuffer :=
      (B.mReadPosInFrameCircularBuffer + B.mHopSize) % B.mSizeFrameCircularBuffer }

/-- `while (getSizeFilledFrameCircularBuffer() >= sizeWindow)`, for at most `fuel` rounds; `step` is the analysis of a
frame, and `none` where it does not return. -/
def frameLoop (step : (ℕ → F) → σ → Option ℤ × σ) : ℕ → FrameBuffer F × σ → Option ℤ × FrameBuffer F × σ
  | 0, st => (none, st)
  | fuel + 1, (B, s) =>
    if B.getSizeFilledFrameCircularBuffer ≥ B.mWindowSize then
      let B := B.nextFrame
      match step B.mAnalBufferFloat s with
      | (some r, s) => (some r, B, s)
      | (none, s) => frameLoop step fuel (B, s)
    else (none, B, s)

/-- One call: every round takes `mHopSize` samples out of the ring, so as many rounds as there are samples are enough
(`frameLoop_direct`). -/
def feed (step : (ℕ → F) → σ → Option ℤ × σ) (audioBuffer : ℕ → F) (size : ℕ) (st : FrameBuffer F × σ) :
    Option ℤ × FrameBuffer F × σ :=
  let B := st.1.write audioBuffer size
  frameLoop step B.getSizeFilledFrameCircularBuffer (B, st.2)

/-! ## Rules -/

section

variable {step : (ℕ → F) → σ → Option ℤ × σ} {fuel : ℕ} {B : FrameBuffer F} {s s' : σ} {r : ℤ}

theorem frameLoop_short (h : ¬ B.getSizeFilledFrameCircularBuffer ≥ B.mWindowSize) :
    frameLoop step fuel (B, s) = (none, B, s) := by
  cases fuel with
  | zero => rfl
  | succ fuel => exact if_neg h

theorem frameLoop_event (h : B.getSizeFilledFrameCircularBuffer ≥ B.mWindowSize)
    (hst : step B.nextFrame.mAnalBufferFloat s = (some r, s')) :
    frameLoop step (fuel + 1) (B, s) = (some r, B.nextFrame, s') := by
  refine (if_pos h).trans ?_
  simp only [hst]

theorem frameLoop_next (h : B.getSizeFilledFrameCircularBuffer ≥ B.mWindowSize)
    (hst : step B.nextFrame.mAnalBufferFloat s = (none, s')) :
    frameLoop step (fuel + 1) (B, s) = frameLoop step fuel (B.nextFrame, s') := by
  refine (if_pos h).trans ?_
  simp only [hst]

/-- Two analyses that agree on what every round keeps. -/
theorem frameLoop_congr {step' : (ℕ → F) → σ → Option ℤ × σ} (I : σ → Prop)
    (hs : ∀ f s, I s → step f s = step' f s ∧ I (step f s).2) :
    ∀ (fuel : ℕ) (B : FrameBuffer F) (s : σ), I s → frameLoop step fuel (B, s) = frameLoop step' fuel (B, s)
  | 0, _, _, _ => rfl
  | fuel + 1, B, s, hI => by
    obtain ⟨heq, hI'⟩ := hs B.nextFrame.mAnalBufferFloat s hI
    by_cases h : B.getSizeFilledFrameCircularBuffer ≥ B.mWindowSize
    · rcases hst : step B.nextFrame.mAnalBufferFloat s with ⟨_ | r, s'⟩
      · rw [hst] at hI'
        rw [frameLoop_next h hst, frameLoop_next h (heq ▸ hst)]
        exact frameLoop_congr I hs fuel B.nextFrame s' hI'
      · rw [frameLoop_event h hst, frameLoop_event h (heq ▸ hst)]
    · rw [frameLoop_short h, frameLoop_short h]

/-- An analysis that keeps more in its state than another one. -/
theorem frameLoop_map (step : (ℕ → F) → σ → Option ℤ × σ) (step' : (ℕ → F) → τ → Option ℤ × τ) (f : τ → σ)
    (hs : ∀ frame t, step frame (f t) = ((step' frame t).1, f (step' frame t).2)) :
    ∀ (fuel : ℕ) (B : FrameBuffer F) (t : τ), frameLoop step fuel (B, f t) =
      ((frameLoop step' fuel (B, t)).1, (frameLoop step' fuel (B, t)).2.1, f (frameLoop step' fuel (B, t)).2.2)
  | 0, _, _ => rfl
  | fuel + 1, B, t => by
    by_cases h : B.getSizeFilledFrameCircularBuffer ≥ B.mWindowSize
    · have hstep := hs B.nextFrame.mAnalBufferFloat t
      rcases hst : step' B.nextFrame.mAnalBufferFloat t with ⟨_ | r, t'⟩
      · rw [hst] at hstep
        rw [frameLoop_next h hst, frameLoop_next h hstep]
        exact frameLoop_map step step' f hs fuel B.nextFrame t'
      · rw [hst] at hstep
        rw [frameLoop_event h hst, frameLoop_event h hstep]
    · rw [frameLoop_short h, frameLoop_short h]

/-- What every round keeps while nothing is returned holds, at the first result or at the end of the call. -/
theorem frameLoop_rule (I : Option ℤ → σ → Prop) (hs : ∀ f s, I none s → I (step f s).1 (step f s).2) (fuel : ℕ)
    (B : FrameBuffer F) (s : σ) (h0 : I none s) :
    I (frameLoop step fuel (B, s)).1 (frameLoop step fuel (B, s)).2.2 := by
  induction fuel generalizing B s with
  | zero => exact h0
  | succ fuel ih =>
    by_cases h : B.getSizeFilledFrameCircularBuffer ≥ B.mWindowSize
    · have h1 := hs B.nextFrame.mAnalBufferFloat s h0
      rcases hst : step B.nextFrame.mAnalBufferFloat s with ⟨_ | r, s'⟩
      · rw [hst] at h1
        rw [frameLoop_next h hst]
        exact ih _ s' h1
      · rw [hst] at h1
        rw [frameLoop_event h hst]
        exact h1
    · rw [frameLoop_short h]
      exact h0

end

theorem feed_rule (step : (ℕ → F) → σ → Option ℤ × σ) (I : Option ℤ → σ → Prop)
    (hs : ∀ f s, I none s → I (step f s).1 (step f s).2) (audioBuffer : ℕ → F) (size : ℕ) (B : FrameBuffer F) (s : σ)
    (h : I none s) : I (feed step audioBuffer size (B, s)).1 (feed step audioBuffer size (B, s)).2.2 :=
  frameLoop_rule I hs _ _ s h

theorem feed_map (step : (ℕ → F) → σ → Option ℤ × σ) (step' : (ℕ → F) → τ → Option ℤ × τ) (f : τ → σ)
    (hs : ∀ frame t, step frame (f t) = ((step' frame t).1, f (step' frame t).2)) (audioBuffer : ℕ → F) (size : ℕ)
    (B : FrameBuffer F) (t : τ) : feed step audioBuffer size (B, f t) =
      ((feed step' audioBuffer size (B, t)).1, (feed step' audioBuffer size (B, t)).2.1,
        f (feed step' audioBuffer size (B, t)).2.2) :=
  frameLoop_map step step' f hs _ _ t

end FrameBuffer

end Undertone
