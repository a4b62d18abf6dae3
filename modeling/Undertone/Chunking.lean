import Undertone.Events

/-!
# Chunks of a stream

A stream of samples is cut into calls of `DecodeAudioBuffer`. As long as the ring has room for every chunk, the frames
that reach the analysis are the windows of the stream, `mHopSize` apart, each exactly once and in order, so the cut
makes no difference (`InStep.call`).
-/

namespace Undertone

open CountedLoop RingBuffer Globals

namespace FrameBuffer

variable {F σ : Type}

/-! ## Positions and contents -/

/-- `p` samples were written into the ring and `n` frames were taken out of it. -/
structure Positions (W H : ℕ) (B : FrameBuffer F) (p n : ℕ) : Prop where
  window : B.mWindowSize = W
  hop : B.mHopSize = H
  readPos : B.mReadPosInFrameCircularBuffer = n * H % (W * 4)
  writePos : B.mWritePosInFrameCircularBuffer = p % (W * 4)
  le : n * H ≤ p
  room : p < n * H + W * 4

theorem Positions.filled {W H : ℕ} {B : FrameBuffer F} {p n : ℕ} (h : Positions W H B p n) :
    B.getSizeFilledFrameCircularBuffer = p - n * H := by
  rw [getSizeFilledFrameCircularBuffer, mSizeFrameCircularBuffer, h.window, h.readPos, h.writePos,
    filled_mod h.le h.room]

/-- The `k`-th window of the stream, with what `mAnalBufferFloat` holds behind it. -/
def window (W H : ℕ) (tail x : ℕ → F) (k : ℕ) : ℕ → F := fun i => if i < W then x (k * H + i) else tail i

/-- The ring holds the part of the stream `x` between the next window and the samples to come. -/
structure Tracks (W H : ℕ) (tail x : ℕ → F) (B : FrameBuffer F) (p n : ℕ) : Prop extends Positions W H B p n where
  holds : Holds (W * 4) B.mCircularBufferFloat x (n * H) p
  tail_eq : ∀ i, W ≤ i → B.mAnalBufferFloat i = tail i

theorem Tracks.write {W H : ℕ} {tail x : ℕ → F} {B : FrameBuffer F} {p n size : ℕ} (h : Tracks W H tail x B p n)
    (hfit : p + size < n * H + W * 4) {audioBuffer : ℕ → F} (hx : ∀ i < size, audioBuffer i = x (p + i)) :
    Tracks W H tail x (B.write audioBuffer size) (p + size) n := by
  have hn : B.mSizeFrameCircularBuffer = W * 4 := by rw [mSizeFrameCircularBuffer, h.window]
  have hput : ∀ (cells : ℕ → F) (i : ℕ) (y : F), put (W * 4) cells (i + B.mWritePosInFrameCircularBuffer) y =
      put (W * 4) cells (p + i) y := fun cells i y => by
    rw [put, put, h.writePos, Nat.add_mod, Nat.mod_mod, ← Nat.add_mod, Nat.add_comm]
  refine ⟨⟨h.window, h.hop, h.readPos, ?_, h.le.trans (Nat.le_add_right _ _), hfit⟩, ?_, h.tail_eq⟩
  · simp only [FrameBuffer.write]
    rw [hn, h.writePos, Nat.add_mod, Nat.mod_mod, ← Nat.add_mod, Nat.add_comm]
  · simp only [FrameBuffer.write]
    rw [hn]
    refine forUp_rule (P := fun i (cells : ℕ → F) => Holds (W * 4) cells x (n * H) (p + i))
      (Nat.zero_le size) h.holds ?_
    intro i cells _ hi hc
    rw [hput]
    exact hc.write (by omega) (hx i hi)

theorem Tracks.nextFrame {W H : ℕ} {tail x : ℕ → F} {B : FrameBuffer F} {p n : ℕ} (h : Tracks W H tail x B p n)
    (hHW : H ≤ W) (hw : n * H + W ≤ p) :
    B.nextFrame.mAnalBufferFloat = window W H tail x n ∧ Tracks W H tail x B.nextFrame p (n + 1) := by
  have hn : B.mSizeFrameCircularBuffer = W * 4 := by rw [mSizeFrameCircularBuffer, h.window]
  have hframe : B.nextFrame.mAnalBufferFloat = window W H tail x n := by
    simp only [FrameBuffer.nextFrame]
    rw [hn, h.window, forUp_fill 0 W]
    funext i
    simp only [window, Nat.zero_le, true_and]
    by_cases hi : i < W
    · rw [if_pos hi, if_pos hi, ← h.holds.cell (n * H + i) (Nat.le_add_right _ _) (by omega), RingBuffer.get,
        RingBuffer.get, h.readPos, Nat.add_mod, Nat.mod_mod, ← Nat.add_mod, Nat.add_comm]
    · rw [if_neg hi, if_neg hi, h.tail_eq i (by omega)]
  have hnH : (n + 1) * H = n * H + H := Nat.succ_mul n H
  have hroom := h.room
  refine ⟨hframe, ⟨h.window, h.hop, ?_, h.writePos, by omega, by omega⟩, ?_, fun i hi => ?_⟩
  · simp only [FrameBuffer.nextFrame]
    rw [hn, h.readPos, h.hop, hnH, Nat.add_mod, Nat.mod_mod, ← Nat.add_mod]
  · rw [hnH]
    exact h.holds.read (by omega)
  · rw [hframe, window, if_neg (by omega)]

/-! ## The analysis of a stream -/

/-- The analysis run directly on frames, one after the other: its results and the state it ends in. -/
def direct (step : (ℕ → F) → σ → Option ℤ × σ) (frame : ℕ → ℕ → F) (s : σ) : ℕ → List ℤ × σ
  | 0 => ([], s)
  | n + 1 =>
    let (results, s) := direct step frame s n
    let (r, s) := step (frame n) s
    (results ++ r.toList, s)

theorem direct_prefix (step : (ℕ → F) → σ → Option ℤ × σ) (frame : ℕ → ℕ → F) (s : σ) {n m : ℕ} (h : n ≤ m) :
    (direct step frame s n).1 <+: (direct step frame s m).1 := by
  induction m, h using Nat.le_induction with
  | base => exact List.prefix_refl _
  | succ m _ ih => exact ih.trans (List.prefix_append _ _)

/-- Frame `k` gives a result in the direct run. -/
def gives (step : (ℕ → F) → σ → Option ℤ × σ) (frame : ℕ → ℕ → F) (s : σ) (k : ℕ) : Bool :=
  (step (frame k) (direct step frame s k).2).1.isSome

/-- How many frames are taken out by the end of a call, of which `n` were before: all of which the `p` samples hold a
full window, up to the first one with a result. -/
def takenOut (event : ℕ → Bool) (W H p : ℕ) : ℕ → ℕ → ℕ
  | 0, n => n
  | fuel + 1, n => if n * H + W ≤ p then if event n then n + 1 else takenOut event W H p fuel (n + 1) else n

/-- The analysis with a note of every frame that it is handed. -/
def noting (step : (ℕ → F) → σ → Option ℤ × σ) (frame : ℕ → F) (st : σ × List (ℕ → F)) :
    Option ℤ × σ × List (ℕ → F) :=
  let (r, s) := step frame st.1
  (r, s, st.2 ++ [frame])

/-- The notes change nothing. -/
theorem frameLoop_noting (step : (ℕ → F) → σ → Option ℤ × σ) (fuel : ℕ) (B : FrameBuffer F) (s : σ)
    (frames : List (ℕ → F)) : ∃ frames', frameLoop (noting step) fuel (B, s, frames) =
      ((frameLoop step fuel (B, s)).1, (frameLoop step fuel (B, s)).2.1, (frameLoop step fuel (B, s)).2.2,
        frames') := by
  have hmap := frameLoop_map step (noting step) Prod.fst (fun _ _ => rfl) fuel B (s, frames)
  simp only at hmap
  rw [hmap]
  exact ⟨_, rfl⟩

/-- Where the state is the one that the direct run has reached, the loop continues the direct run. -/
theorem frameLoop_direct (step : (ℕ → F) → σ → Option ℤ × σ) {W H : ℕ} {tail x : ℕ → F} (hH : 0 < H) (hHW : H ≤ W)
    (s0 : σ) {p : ℕ} : ∀ (fuel n : ℕ) (B : FrameBuffer F), Tracks W H tail x B p n → p - n * H ≤ fuel →
      ∃ n', n ≤ n' ∧
        Tracks W H tail x (frameLoop step fuel (B, (direct step (window W H tail x) s0 n).2)).2.1 p n' ∧
        (frameLoop step fuel (B, (direct step (window W H tail x) s0 n).2)).2.2 =
          (direct step (window W H tail x) s0 n').2 ∧
        (direct step (window W H tail x) s0 n').1 = (direct step (window W H tail x) s0 n).1 ++
          (frameLoop step fuel (B, (direct step (window W H tail x) s0 n).2)).1.toList ∧
        ((frameLoop step fuel (B, (direct step (window W H tail x) s0 n).2)).1 = none → p < n' * H + W) ∧
        n' = takenOut (gives step (window W H tail x) s0) W H p fuel n
  | 0, n, B, h, hf => ⟨n, le_rfl, h, rfl, (List.append_nil _).symm, fun _ => by have := h.le; omega, rfl⟩
  | fuel + 1, n, B, h, hf => by
    by_cases hw : B.getSizeFilledFrameCircularBuffer ≥ B.mWindowSize
    · have hpos := h.filled
      rw [hpos, h.window] at hw
      have hle := h.le
      obtain ⟨hframe, hnext⟩ := h.nextFrame hHW (by omega)
      rcases hst : step B.nextFrame.mAnalBufferFloat (direct step (window W H tail x) s0 n).2 with ⟨_ | r, s'⟩
      · rw [frameLoop_next (by rw [hpos, h.window]; exact hw) hst]
        have hst' : s' = (direct step (window W H tail x) s0 (n + 1)).2 := by
          simp only [direct, ← hframe, hst]
        have hes : (direct step (window W H tail x) s0 (n + 1)).1 = (direct step (window W H tail x) s0 n).1 := by
          simp only [direct, ← hframe, hst, Option.toList_none, List.append_nil]
        have hnH : (n + 1) * H = n * H + H := Nat.succ_mul n H
        have hgives : gives step (window W H tail x) s0 n = false := by
          rw [gives, ← hframe, hst]
          rfl
        obtain ⟨n', hn', h1, h2, h3, h4, h5⟩ := frameLoop_direct step hH hHW s0 fuel (n + 1) _ hnext (by omega)
        rw [← hst'] at h1 h2 h3 h4
        rw [hes] at h3
        refine ⟨n', by omega, h1, h2, h3, h4, ?_⟩
        rw [takenOut, if_pos (by omega), hgives, h5]
        rfl
      · rw [frameLoop_event (by rw [hpos, h.window]; exact hw) hst]
        refine ⟨n + 1, by omega, hnext, ?_, ?_, fun h => absurd h (by simp), ?_⟩
        · simp only [direct, ← hframe, hst]
        · simp only [direct, ← hframe, hst]
        · have hgives : gives step (window W H tail x) s0 n = true := by
            rw [gives, ← hframe, hst]
            rfl
          rw [takenOut, if_pos (by omega), hgives, if_pos rfl]
    · rw [frameLoop_short hw]
      have hpos := h.filled
      rw [hpos, h.window] at hw
      exact ⟨n, le_rfl, h, rfl, (List.append_nil _).symm, fun _ => by omega, by rw [takenOut, if_neg (by omega)]⟩

/-- The frames that the noting analysis has been handed are the windows, each exactly once. -/
theorem direct_noting (step : (ℕ → F) → σ → Option ℤ × σ) (frame : ℕ → ℕ → F) (s : σ) (n : ℕ) :
    direct (noting step) frame (s, []) n =
      ((direct step frame s n).1, (direct step frame s n).2, (List.range n).map frame) := by
  induction n with
  | zero => rfl
  | succ n ih =>
    simp only [direct, ih, noting, List.range_succ, List.map_append, List.map_cons, List.map_nil]

theorem gives_noting (step : (ℕ → F) → σ → Option ℤ × σ) (frame : ℕ → ℕ → F) (s : σ) :
    gives (noting step) frame (s, []) = gives step frame s := by
  funext k
  rw [gives, direct_noting]
  rfl

/-- One call on the next `size` samples of the stream. -/
theorem feed_direct (step : (ℕ → F) → σ → Option ℤ × σ) {W H : ℕ} {tail x : ℕ → F} (hH : 0 < H) (hHW : H ≤ W) (s0 : σ)
    {p n size : ℕ} {B : FrameBuffer F} (h : Tracks W H tail x B p n) (hfit : p + size < n * H + W * 4)
    {audioBuffer : ℕ → F} (hx : ∀ i < size, audioBuffer i = x (p + i)) {s : σ}
    (hs : s = (direct step (window W H tail x) s0 n).2) :
    ∃ n', n ≤ n' ∧ Tracks W H tail x (feed step audioBuffer size (B, s)).2.1 (p + size) n' ∧
      (feed step audioBuffer size (B, s)).2.2 = (direct step (window W H tail x) s0 n').2 ∧
      (direct step (window W H tail x) s0 n').1 =
        (direct step (window W H tail x) s0 n).1 ++ (feed step audioBuffer size (B, s)).1.toList ∧
      ((feed step audioBuffer size (B, s)).1 = none → p + size < n' * H + W) ∧
      (feed (noting step) audioBuffer size (B, s, (List.range n).map (window W H tail x))).2.2.2 =
        (List.range n').map (window W H tail x) ∧
      n' = takenOut (gives step (window W H tail x) s0) W H (p + size) (p + size - n * H) n := by
  subst hs
  have hw := h.write hfit hx
  obtain ⟨n', hn', h1, h2, h3, h4, h5⟩ := frameLoop_direct (noting step) hH hHW (s0, [])
    (B.write audioBuffer size).getSizeFilledFrameCircularBuffer n _ hw (by rw [hw.filled])
  rw [direct_noting, direct_noting] at h2 h3
  rw [direct_noting] at h1 h4
  rw [gives_noting, hw.filled] at h5
  obtain ⟨frames, hnote⟩ := frameLoop_noting step (B.write audioBuffer size).getSizeFilledFrameCircularBuffer
    (B.write audioBuffer size) (direct step (window W H tail x) s0 n).2 ((List.range n).map (window W H tail x))
  rw [hnote] at h1 h2 h3 h4
  refine ⟨n', hn', h1, congrArg Prod.fst h2, h3, h4, ?_, h5⟩
  rw [feed]
  simp only
  rw [hnote]
  exact congrArg Prod.snd h2

end FrameBuffer

namespace Decoder

variable {F D : Type} [Doubles D] [Floats F D] [CFFTOoura F]

/-! ## A decoder that listens to a stream -/

/-- Samples in the ring from the next frame on. -/
def unread (d : Decoder F) : ℕ := d.frames.getSizeFilledFrameCircularBuffer

structure Listening (F : Type) where
  played : ℕ
  decoder : Decoder F
  /-- The frames handed to the analysis so far. -/
  frames : List (ℕ → F)

/-- A call of `DecodeAudioBuffer` on the next `size` samples of the stream `x`, where `ok` allows for it. -/
def listen (ok : Decoder F → ℕ → Prop) [∀ d n, Decidable (ok d n)] (g : Globals F) (x : ℕ → F) (size : ℕ)
    (L : Listening F) : Option (ℤ × Listening F) :=
  if ok L.decoder size then
    let audioBuffer := fun i => x (L.played + i)
    let (ret, d) := L.decoder.DecodeAudioBuffer g audioBuffer size
    let (_, _, _, frames) := FrameBuffer.feed (FrameBuffer.noting (Core.step L.decoder.cls g)) audioBuffer size
      (L.decoder.frames, L.decoder.core, L.frames)
    some (ret, { played := L.played + size, decoder := d, frames := frames })
  else none

/-- The results other than `-1`. -/
def results (log : List (ℕ × ℤ)) : List ℤ := (log.map Prod.snd).filter (· ≠ -1)

theorem results_append {r : Option ℤ} (hr : r ≠ some (-1)) (log : List (ℕ × ℤ)) (size : ℕ) :
    results (log ++ [(size, r.getD (-1))]) = results log ++ r.toList := by
  cases r with
  | none => simp [results]
  | some r =>
    have hne : r ≠ -1 := fun h => hr (congrArg some h)
    simp [results, hne]

/-- After `n` frames everything is as the analysis of the first `n` windows leaves it. -/
structure InStep (c : DecoderClass) (g : Globals F) (x : ℕ → F) (d0 : Decoder F) (log : List (ℕ × ℤ)) (L : Listening F)
    (n : ℕ) : Prop where
  cls : L.decoder.cls = c
  tracks : FrameBuffer.Tracks d0.frames.mWindowSize d0.frames.mHopSize d0.frames.mAnalBufferFloat x L.decoder.frames
    L.played n
  core : L.decoder.core = (FrameBuffer.direct (Core.step c g) (FrameBuffer.window d0.frames.mWindowSize
    d0.frames.mHopSize d0.frames.mAnalBufferFloat x) d0.core n).2
  results : results log = (FrameBuffer.direct (Core.step c g) (FrameBuffer.window d0.frames.mWindowSize
    d0.frames.mHopSize d0.frames.mAnalBufferFloat x) d0.core n).1
  frames : L.frames = (List.range n).map (FrameBuffer.window d0.frames.mWindowSize d0.frames.mHopSize
    d0.frames.mAnalBufferFloat x)

theorem InStep.unread {c : DecoderClass} {g : Globals F} {x : ℕ → F} {d0 : Decoder F} {log : List (ℕ × ℤ)}
    {L : Listening F} {n : ℕ} (h : InStep c g x d0 log L n) :
    L.decoder.unread = L.played - n * d0.frames.mHopSize := h.tracks.filled

/-- What a call of the listening decoder does, in terms of `feed`. -/
theorem listen_inv {ok : Decoder F → ℕ → Prop} [∀ d n, Decidable (ok d n)] {g : Globals F} {x : ℕ → F} {size : ℕ}
    {L L' : Listening F} {r : ℤ} (h : listen ok g x size L = some (r, L')) :
    ok L.decoder size ∧
      r = (FrameBuffer.feed (Core.step L.decoder.cls g) (fun i => x (L.played + i)) size
        (L.decoder.frames, L.decoder.core)).1.getD (-1) ∧
      L'.played = L.played + size ∧ L'.decoder.cls = L.decoder.cls ∧
      L'.decoder.frames = (FrameBuffer.feed (Core.step L.decoder.cls g) (fun i => x (L.played + i)) size
        (L.decoder.frames, L.decoder.core)).2.1 ∧
      L'.decoder.core = (FrameBuffer.feed (Core.step L.decoder.cls g) (fun i => x (L.played + i)) size
        (L.decoder.frames, L.decoder.core)).2.2 ∧
      L'.frames = (FrameBuffer.feed (FrameBuffer.noting (Core.step L.decoder.cls g)) (fun i => x (L.played + i)) size
        (L.decoder.frames, L.decoder.core, L.frames)).2.2.2 := by
  unfold listen at h
  split at h
  · rename_i hok
    have h := Option.some.inj h
    obtain ⟨h1, rfl⟩ : _ ∧ _ = L' := ⟨congrArg Prod.fst h, congrArg Prod.snd h⟩
    exact ⟨hok, h1.symm, rfl, rfl, rfl, rfl, rfl⟩
  · exact absurd h (by simp)

theorem mem_results {log : List (ℕ × ℤ)} {r : ℤ} (hr : r ≠ -1) : r ∈ results log ↔ ∃ e ∈ log, e.2 = r := by
  simp [results, hr]

theorem call_of_decode {g : Globals F} {audioBuffer : ℕ → F} {size : ℕ} {d d' : Decoder F} {r : ℤ}
    (h : d.DecodeAudioBuffer g audioBuffer size = (r, d')) :
    d.call (.DecodeAudioBuffer g audioBuffer size) = some (.event r, d') :=
  congrArg (fun p : ℤ × Decoder F => some (Answer.event p.1, p.2)) h

theorem listen_of_call {ok : Decoder F → ℕ → Prop} [∀ d n, Decidable (ok d n)] {g : Globals F} {x : ℕ → F} {size : ℕ}
    {L : Listening F} (hok : ok L.decoder size) {r : ℤ} {d : Decoder F}
    (hd : L.decoder.DecodeAudioBuffer g (fun i => x (L.played + i)) size = (r, d)) :
    ∃ frames, listen ok g x size L = some (r, ⟨L.played + size, d, frames⟩) := by
  refine ⟨(FrameBuffer.feed (FrameBuffer.noting (Core.step L.decoder.cls g)) (fun i => x (L.played + i)) size
    (L.decoder.frames, L.decoder.core, L.frames)).2.2.2, ?_⟩
  unfold listen
  rw [if_pos hok]
  simp only [hd]

/-- Listening is a run of calls without polls, which returns the same. -/
theorem listen_calls {ok : Decoder F → ℕ → Prop} [∀ d n, Decidable (ok d n)] {g : Globals F} {x : ℕ → F}
    {L0 L : Listening F} {log : List (ℕ × ℤ)} (h : Run (listen ok g x) L0 log L) :
    ∃ calls : List (Call F × Answer), Run call L0.decoder calls L.decoder ∧
      (∀ e ∈ calls, e.1 ≠ .GetDecodedData) ∧ events calls = results log := by
  refine h.rule (fun log L => ∃ calls : List (Call F × Answer), Run call L0.decoder calls L.decoder ∧
    (∀ e ∈ calls, e.1 ≠ .GetDecodedData) ∧ events calls = results log) ⟨[], .nil, by simp, rfl⟩ ?_
  rintro log L size r L' ⟨calls, hrun, hpolls, hevents⟩ hcall
  have hdec : L.decoder.DecodeAudioBuffer g (fun i => x (L.played + i)) size = (r, L'.decoder) := by
    unfold listen at hcall
    split at hcall
    · exact congrArg (fun p : ℤ × Listening F => (p.1, p.2.decoder)) (Option.some.inj hcall)
    · exact absurd hcall (by simp)
  refine ⟨calls ++ [(.DecodeAudioBuffer g (fun i => x (L.played + i)) size, .event r)],
    .call hrun (call_of_decode hdec), ?_, ?_⟩
  · intro e he
    rcases List.mem_append.1 he with he | he
    · exact hpolls e he
    · rw [List.mem_singleton.1 he]
      simp
  · rw [events_append, hevents]
    by_cases hr : r = -1 <;> simp [results, events, Answer.event?, hr]

/-- A call that finds room for its samples. -/
theorem InStep.call {c : DecoderClass} {g : Globals F} {x : ℕ → F} {d0 : Decoder F} {log : List (ℕ × ℤ)}
    {L L' : Listening F} {n : ℕ} (h : InStep c g x d0 log L n) (hH : 0 < d0.frames.mHopSize)
    (hHW : d0.frames.mHopSize ≤ d0.frames.mWindowSize) {ok : Decoder F → ℕ → Prop} [∀ d n, Decidable (ok d n)]
    {size : ℕ} {r : ℤ} (hcall : listen ok g x size L = some (r, L'))
    (hfit : L.decoder.unread + size ≤ 4 * d0.frames.mWindowSize - 1) :
    ∃ n', InStep c g x d0 (log ++ [(size, r)]) L' n' ∧ (r = -1 → L'.decoder.unread < d0.frames.mWindowSize) ∧
      n' = FrameBuffer.takenOut (FrameBuffer.gives (Core.step c g) (FrameBuffer.window d0.frames.mWindowSize
        d0.frames.mHopSize d0.frames.mAnalBufferFloat x) d0.core) d0.frames.mWindowSize d0.frames.mHopSize
        (L.played + size) (L.played + size - n * d0.frames.mHopSize) n := by
  obtain ⟨-, hr, hplayed, hcls, hring, hcore, hframes⟩ := listen_inv hcall
  rw [h.cls] at hr hcls hring hcore hframes
  have hle := h.tracks.le
  rw [h.unread] at hfit
  obtain ⟨n', hn', h1, h2, h3, h4, h5, h6⟩ := FrameBuffer.feed_direct (Core.step c g) hH hHW d0.core h.tracks
    (by omega : L.played + size < n * d0.frames.mHopSize + d0.frames.mWindowSize * 4)
    (fun i _ => (rfl : (fun i => x (L.played + i)) i = _)) h.core
  have hne := (feed_outcome c g (fun i => x (L.played + i)) size L.decoder.frames L.decoder.core).ne_neg_one
  rw [← h.frames] at h5
  rw [← hplayed] at h1 h4
  have hstep : InStep c g x d0 (log ++ [(size, r)]) L' n' := by
    refine ⟨hcls, ?_, ?_, ?_, hframes.trans h5⟩
    · rwa [hring]
    · rw [hcore, h2]
    · rw [hr, results_append hne, h.results, h3]
  refine ⟨n', hstep, fun hr1 => ?_, h6⟩
  have hlt := h4 (by
    rcases hf : (FrameBuffer.feed (Core.step c g) (fun i => x (L.played + i)) size
      (L.decoder.frames, L.decoder.core)).1 with _ | q
    · rfl
    · rw [hf] at hr hne
      exact absurd (congrArg some (hr.symm.trans hr1)) hne)
  rw [hstep.unread]
  omega

omit [Doubles D] [CFFTOoura F] in
theorem hopSize_pos (samplingRate : F) : 0 < hopSize samplingRate := by
  unfold hopSize
  split
  · decide
  · split
    · decide
    · split <;> decide

omit [Doubles D] [CFFTOoura F] in
theorem hopSize_le (samplingRate : F) : hopSize samplingRate ≤ 256 := by
  unfold hopSize
  split
  · decide
  · split
    · decide
    · split <;> decide

section Runs

variable {mem : Decoder F} {memRS : ReedSolomon} {c : DecoderClass} {g0 g : Globals F} {samplingRate : F} {W : ℕ}
  {x : ℕ → F}

theorem inStep_new (hHW : hopSize samplingRate ≤ W) :
    InStep c g x (Decoder.new mem memRS c g0 samplingRate W) []
      ⟨0, Decoder.new mem memRS c g0 samplingRate W, []⟩ 0 := by
  have hpos := hopSize_pos samplingRate
  refine ⟨rfl, ⟨⟨rfl, rfl, ?_, ?_, ?_, ?_⟩, ?_, fun _ _ => rfl⟩, rfl, rfl, rfl⟩
  · rw [Nat.zero_mul, Nat.zero_mod]
    rfl
  · exact (Nat.zero_mod _).symm
  · exact (Nat.zero_mul _).le
  · rw [Nat.zero_mul, Nat.zero_add]
    exact Nat.mul_pos (hpos.trans_le hHW) (by decide)
  · rw [Nat.zero_mul]
    exact holds_empty (Nat.mul_pos (hpos.trans_le hHW) (by decide)) _ _ _

/-- The unread samples and the new ones fit into the ring. -/
def Fits (d : Decoder F) (size : ℕ) : Prop := d.unread + size ≤ 4 * d.frames.mWindowSize - 1

instance (d : Decoder F) (size : ℕ) : Decidable (Fits d size) := inferInstanceAs (Decidable (_ ≤ _))

theorem run_fits {log : List (ℕ × ℤ)} {L : Listening F} (hHW : hopSize samplingRate ≤ W)
    (h : Run (listen Fits g x) ⟨0, Decoder.new mem memRS c g0 samplingRate W, []⟩ log L) :
    ∃ n, InStep c g x (Decoder.new mem memRS c g0 samplingRate W) log L n := by
  refine h.rule (fun log L => ∃ n, InStep c g x (Decoder.new mem memRS c g0 samplingRate W) log L n)
    ⟨0, inStep_new hHW⟩ ?_
  rintro log L size r L' ⟨n, hn⟩ hcall
  have hfit : Fits L.decoder size := (listen_inv hcall).1
  unfold Fits at hfit
  rw [hn.tracks.window] at hfit
  obtain ⟨n', hn', -⟩ := hn.call (hopSize_pos samplingRate) hHW hcall hfit
  exact ⟨n', hn'⟩

end Runs

end Decoder

end Undertone
