import Undertone.Chord

/-!
# Overruns of the ring of samples

While every chunk fits into the ring, the cut of the stream makes no difference (`chunking`). Chunks of up to three
windows leave room for one more window. They always fit when every call drains the ring down to less than a window; a
call that returns an event stops there and may leave more, so it depends on the distances of the events in the stream
whether they fit (`ring_never_overruns`).
-/

namespace Undertone

open RingBuffer Globals

namespace Decoder

variable {F D : Type} [Doubles D] [Floats F D] [CFFTOoura F]

/-! ## A chord -/

/-- A chord that is heard as the start tokens, handed over hop by hop and then in one larger call: this call hears them,
and leaves unread what comes behind their last frame. -/
theorem chord_starts (ok : Decoder ℝ → ℕ → Prop) [∀ d n, Decidable (ok d n)] (size : ℕ)
    (hok : ∀ (d : Decoder ℝ) n, d.frames.mWindowSize = 2048 → d.unread + n ≤ 2048 → ok d n)
    (hsize : 256 ≤ size) (hfits : size < 6400)
    (hlast : ∀ d : Decoder ℝ, d.frames.mWindowSize = 2048 → d.unread = 1792 → ok d size) :
    ∃ (log : List (ℕ × ℤ)) (L : Listening ℝ),
      Run (listen ok initial (chord 267)) ⟨0, audible, []⟩ (log ++ [(size, -2)]) L ∧ L.played = 10496 + size ∧
        L.decoder.frames.mWindowSize = 2048 ∧ L.decoder.unread = size + 1536 := by
  have hsound := chord_sounds (d := 267) (by decide) (by decide) (by decide)
  obtain ⟨log, L, hrun, hplay, hplayed, -⟩ := play ok (g := initial) chord_tokens.1 hsound rfl hok (N := 34)
    (fun n hn h35 => by omega) 34 le_rfl
  obtain ⟨tail, n, htracks, hp⟩ := hplay.frames
  obtain ⟨r, C', hC, hr, -⟩ := hplay.cycle.step chord_tokens.1 (by decide) (g := initial) rfl (hsound tail n)
    fun h => absurd h (by decide)
  obtain rfl : r = some (-2) := hr
  obtain ⟨B', hfeed, hB⟩ := FrameBuffer.feed_frame (by decide) htracks
    (show L.played + size < n * 256 + 2048 * 4 by omega) (by omega) (by decide) (fun i => chord 267 (L.played + i))
    (fun i _ => rfl) hC fun h => absurd h (by simp)
  obtain ⟨frames, hlisten⟩ :=
    listen_of_call (hlast L.decoder hplay.window hplay.unread) (decode_of_feed hplay.cls hfeed)
  have hunread : B'.getSizeFilledFrameCircularBuffer = L.played + size - (n + 1) * 256 := hB.filled
  refine ⟨log, _, .call hrun hlisten, ?_, hB.window, hunread.trans (by omega)⟩
  show L.played + size = _
  omega

/-! ## Chunks that fit -/

section Chunks

variable {mem : Decoder F} {memRS : ReedSolomon} {c : DecoderClass} {g g0 : Globals F} {samplingRate : F} {W : ℕ}
  {x : ℕ → F}

/-- Whatever the cut, as long as every chunk fits: the frames handed to the analysis are the windows of the stream,
each exactly once and in order; the results are those of the analysis run directly on them; and the samples that are
still to be read are in the ring. -/
theorem chunking {log : List (ℕ × ℤ)} {L : Listening F} (hHW : hopSize samplingRate ≤ W)
    (h : Run (listen Fits g x) ⟨0, Decoder.new mem memRS c g0 samplingRate W, []⟩ log L) :
    let d0 := Decoder.new mem memRS c g0 samplingRate W
    let frame := FrameBuffer.window W (hopSize samplingRate) d0.frames.mAnalBufferFloat x
    ∃ n, L.frames = (List.range n).map frame ∧
      results log = (FrameBuffer.direct (Core.step c g) frame d0.core n).1 ∧
      L.decoder.core = (FrameBuffer.direct (Core.step c g) frame d0.core n).2 ∧
      (∀ m, n ≤ m → results log <+: (FrameBuffer.direct (Core.step c g) frame d0.core m).1) ∧
      ∀ i, n * hopSize samplingRate ≤ i → i < L.played →
        RingBuffer.get (W * 4) L.decoder.frames.mCircularBufferFloat i = x i := by
  obtain ⟨n, hn⟩ := run_fits hHW h
  refine ⟨n, hn.frames, hn.results, hn.core, fun m hm => ?_, hn.tracks.holds.cell⟩
  rw [hn.results]
  exact FrameBuffer.direct_prefix _ _ _ hm

end Chunks

theorem chunking_chord : ∃ (log : List (ℕ × ℤ)) (L : Listening ℝ) (n : ℕ),
    Run (listen Fits initial (chord 267)) ⟨0, audible, []⟩ (log ++ [(4096, -2)]) L ∧ L.played = 14592 ∧
      L.frames = (List.range n).map (FrameBuffer.window 2048 (hopSize (44100 : ℝ)) audible.frames.mAnalBufferFloat
        (chord 267)) ∧
      -2 ∈ (FrameBuffer.direct (Core.step .AudibleMultiTone initial) (FrameBuffer.window 2048 (hopSize (44100 : ℝ))
        audible.frames.mAnalBufferFloat (chord 267)) audible.core n).1 := by
  obtain ⟨log, L, hrun, hplayed, -⟩ := chord_starts Fits 4096
    (fun d size hd hsize => by unfold Fits; omega) (by decide) (by decide) fun d hd hunread => by unfold Fits; omega
  obtain ⟨n, hframes, hresults, -⟩ := chunking ((hopSize_le (44100 : ℝ)).trans (by decide)) hrun
  have hevent : -2 ∈ results (log ++ [(4096, -2)]) :=
    (mem_results (by decide)).2 ⟨_, List.mem_append_right _ (List.mem_singleton_self _), rfl⟩
  rw [hresults] at hevent
  exact ⟨log, L, n, hrun, hplayed, hframes, hevent⟩

/-! ## Chunks of up to three windows -/

/-- A chunk is not larger than the ring without a window. -/
def Small (d : Decoder F) (size : ℕ) : Prop := size ≤ 3 * d.frames.mWindowSize

instance (d : Decoder F) (size : ℕ) : Decidable (Small d size) := inferInstanceAs (Decidable (_ ≤ _))

/-- In every state of a run the ring has room for every small chunk. -/
def HasRoom (g : Globals F) (x : ℕ → F) (L0 : Listening F) (log : List (ℕ × ℤ)) : Prop :=
  ∀ l L, l <+: log → Run (listen Small g x) L0 l L → ∀ size, Small L.decoder size → Fits L.decoder size

/-- What was unread before a call fits into the ring together with its chunk, for every call of a run. -/
def NeverOverruns (g : Globals F) (x : ℕ → F) (L0 : Listening F) (log : List (ℕ × ℤ)) : Prop :=
  ∀ l size r L, l ++ [(size, r)] <+: log → Run (listen Small g x) L0 l L → Fits L.decoder size

/-- The samples handed over and the frames taken out with chunks of these sizes, when the frames with an event are these
ones. -/
def progress (event : ℕ → Bool) (W H : ℕ) (sizes : List ℕ) : ℕ × ℕ :=
  sizes.foldl (fun (p, n) size => (p + size, FrameBuffer.takenOut event W H (p + size) (p + size - n * H) n)) (0, 0)

/-- The frames with an event are far enough apart for chunks of these sizes. -/
def Spaced (event : ℕ → Bool) (W H : ℕ) (sizes : List ℕ) : Prop :=
  ∀ l size, l ++ [size] <+: sizes → (progress event W H l).1 - (progress event W H l).2 * H + size ≤ 4 * W - 1

/-- No call of a run returned an event while a whole window was still unread. -/
def Drained (g : Globals F) (x : ℕ → F) (L0 : Listening F) (log : List (ℕ × ℤ)) : Prop :=
  ∀ l size r L, l ++ [(size, r)] <+: log → Run (listen Small g x) L0 (l ++ [(size, r)]) L → r ≠ -1 →
    L.decoder.unread < L.decoder.frames.mWindowSize

theorem progress_snoc (event : ℕ → Bool) (W H : ℕ) (sizes : List ℕ) (size : ℕ) :
    progress event W H (sizes ++ [size]) = ((progress event W H sizes).1 + size,
      FrameBuffer.takenOut event W H ((progress event W H sizes).1 + size)
        ((progress event W H sizes).1 + size - (progress event W H sizes).2 * H) (progress event W H sizes).2) := by
  rw [progress, List.foldl_append]
  rfl

theorem spaced_snoc {event : ℕ → Bool} {W H : ℕ} {sizes : List ℕ} {size : ℕ} :
    Spaced event W H (sizes ++ [size]) ↔ Spaced event W H sizes ∧
      (progress event W H sizes).1 - (progress event W H sizes).2 * H + size ≤ 4 * W - 1 := by
  refine ⟨fun h => ⟨fun l s hl => h l s (hl.trans (List.prefix_append _ _)), h _ _ (List.prefix_refl _)⟩, ?_⟩
  rintro ⟨h, hlast⟩ l s hl
  rcases snoc_prefix_snoc.1 hl with ⟨rfl, rfl⟩ | hl
  · exact hlast
  · exact h l s hl

theorem neverOverruns_snoc {g : Globals F} {x : ℕ → F} {L0 L : Listening F} {log : List (ℕ × ℤ)} {size : ℕ} {r : ℤ}
    (hrun : Run (listen Small g x) L0 log L) :
    NeverOverruns g x L0 (log ++ [(size, r)]) ↔ NeverOverruns g x L0 log ∧ Fits L.decoder size := by
  refine ⟨fun h => ⟨fun l s r L1 hl => h l s r L1 (hl.trans (List.prefix_append _ _)),
    h _ _ _ _ (List.prefix_refl _) hrun⟩, ?_⟩
  rintro ⟨h, hlast⟩ l s r' L1 hl hrun1
  rcases snoc_prefix_snoc.1 hl with ⟨rfl, hlog⟩ | hl
  · obtain ⟨rfl, -⟩ := Prod.mk.inj hlog
    rwa [hrun1.deterministic hrun]
  · exact h l s r' L1 hl hrun1

theorem HasRoom.neverOverruns {g : Globals F} {x : ℕ → F} {L0 L : Listening F} {log : List (ℕ × ℤ)}
    (h : Run (listen Small g x) L0 log L) (hroom : HasRoom g x L0 log) : NeverOverruns g x L0 log := by
  rintro l size r L1 hl hrun
  obtain ⟨l', rfl⟩ := hl
  obtain ⟨L2, hrun2, -⟩ := h.split
  obtain ⟨L1', hrun1, hcall⟩ := hrun2.snoc_inv
  obtain rfl := hrun1.deterministic hrun
  exact hroom l L1' ((List.prefix_append _ _).trans (List.prefix_append _ _)) hrun size (listen_inv hcall).1

section Runs

variable {mem : Decoder F} {memRS : ReedSolomon} {c : DecoderClass} {g g0 : Globals F} {samplingRate : F} {W : ℕ}
  {x : ℕ → F}

theorem run_drained {log : List (ℕ × ℤ)} {L : Listening F} (hHW : hopSize samplingRate ≤ W)
    (h : Run (listen Small g x) ⟨0, Decoder.new mem memRS c g0 samplingRate W, []⟩ log L)
    (hd : Drained g x ⟨0, Decoder.new mem memRS c g0 samplingRate W, []⟩ log) :
    ∃ n, InStep c g x (Decoder.new mem memRS c g0 samplingRate W) log L n ∧ L.decoder.unread < W := by
  set L0 : Listening F := ⟨0, Decoder.new mem memRS c g0 samplingRate W, []⟩
  have hpos := hopSize_pos samplingRate
  refine h.rule_run (fun log L => Drained g x L0 log →
    ∃ n, InStep c g x (Decoder.new mem memRS c g0 samplingRate W) log L n ∧ L.decoder.unread < W)
    (fun _ => ⟨0, inStep_new hHW, ?_⟩) ?_ hd
  · have hnew : InStep c g x (Decoder.new mem memRS c g0 samplingRate W) [] L0 0 := inStep_new hHW
    rw [hnew.unread]
    exact (Nat.zero_sub _).trans_lt (hpos.trans_le hHW)
  intro log L size r L' hrun ih hcall hd
  obtain ⟨n, hn, hlt⟩ := ih fun l s r L hl => hd l s r L (hl.trans (List.prefix_append _ _))
  have hsmall : Small L.decoder size := (listen_inv hcall).1
  unfold Small at hsmall
  rw [hn.tracks.window] at hsmall
  have hsmall : size ≤ 3 * W := hsmall
  obtain ⟨n', hn', hquiet, -⟩ := hn.call hpos hHW hcall (show L.decoder.unread + size ≤ 4 * W - 1 by omega)
  refine ⟨n', hn', ?_⟩
  by_cases hr : r = -1
  · exact hquiet hr
  · have := hd log size r L' (List.prefix_refl _) (.call hrun hcall) hr
    rwa [hn'.tracks.window] at this

variable (mem memRS c g g0 samplingRate W x) in
/-- Frame `k` of the stream gives an event in the direct analysis. -/
def eventFrames (k : ℕ) : Bool :=
  let d0 := Decoder.new mem memRS c g0 samplingRate W
  FrameBuffer.gives (Core.step c g) (FrameBuffer.window W (hopSize samplingRate) d0.frames.mAnalBufferFloat x) d0.core k

theorem run_fitting {log : List (ℕ × ℤ)} {L : Listening F} (hHW : hopSize samplingRate ≤ W)
    (h : Run (listen Small g x) ⟨0, Decoder.new mem memRS c g0 samplingRate W, []⟩ log L)
    (hnever : NeverOverruns g x ⟨0, Decoder.new mem memRS c g0 samplingRate W, []⟩ log) :
    ∃ n, InStep c g x (Decoder.new mem memRS c g0 samplingRate W) log L n ∧
      progress (eventFrames mem memRS c g g0 samplingRate W x) W (hopSize samplingRate) (log.map Prod.fst) =
        (L.played, n) := by
  set L0 : Listening F := ⟨0, Decoder.new mem memRS c g0 samplingRate W, []⟩
  refine h.rule_run (fun log L => NeverOverruns g x L0 log →
    ∃ n, InStep c g x (Decoder.new mem memRS c g0 samplingRate W) log L n ∧
      progress (eventFrames mem memRS c g g0 samplingRate W x) W (hopSize samplingRate) (log.map Prod.fst) =
        (L.played, n)) (fun _ => ⟨0, inStep_new hHW, rfl⟩) ?_ hnever
  intro log L size r L' hrun ih hcall hnever
  obtain ⟨hbefore, hfit⟩ := (neverOverruns_snoc hrun).1 hnever
  obtain ⟨n, hn, hprogress⟩ := ih hbefore
  unfold Fits at hfit
  rw [hn.tracks.window] at hfit
  obtain ⟨n', hn', -, htaken⟩ := hn.call (hopSize_pos samplingRate) hHW hcall hfit
  refine ⟨n', hn', ?_⟩
  rw [List.map_append, List.map_singleton, progress_snoc, hprogress, (listen_inv hcall).2.2.1, htaken]
  rfl

/-- Every chunk fits exactly when the frames with an event are far enough apart. -/
theorem run_neverOverruns {log : List (ℕ × ℤ)} {L : Listening F} (hHW : hopSize samplingRate ≤ W)
    (h : Run (listen Small g x) ⟨0, Decoder.new mem memRS c g0 samplingRate W, []⟩ log L) :
    NeverOverruns g x ⟨0, Decoder.new mem memRS c g0 samplingRate W, []⟩ log ↔
      Spaced (eventFrames mem memRS c g g0 samplingRate W x) W (hopSize samplingRate) (log.map Prod.fst) := by
  set L0 : Listening F := ⟨0, Decoder.new mem memRS c g0 samplingRate W, []⟩
  refine h.rule_run (fun log L => NeverOverruns g x L0 log ↔
    Spaced (eventFrames mem memRS c g g0 samplingRate W x) W (hopSize samplingRate) (log.map Prod.fst))
    (iff_of_true (fun l _ _ _ hl => absurd (List.prefix_nil.1 hl) (by simp))
      fun l _ hl => absurd (List.prefix_nil.1 hl) (by simp)) ?_
  intro log L size r L' hrun ih hcall
  rw [neverOverruns_snoc hrun, List.map_append, List.map_singleton, spaced_snoc, ← ih]
  refine and_congr_right fun hnever => ?_
  obtain ⟨n, hn, hprogress⟩ := run_fitting hHW hrun hnever
  unfold Fits
  rw [hprogress, hn.unread, hn.tracks.window]
  rfl

/-- A run of small chunks never overruns the ring exactly when the frames with an event are far enough apart for them,
and then the analysis has been handed the windows of the stream. The ring has room for every further small chunk too, in
every state, exactly when no call returned an event while a whole window was still unread. -/
theorem ring_never_overruns {log : List (ℕ × ℤ)} {L : Listening F} (hHW : hopSize samplingRate ≤ W)
    (h : Run (listen Small g x) ⟨0, Decoder.new mem memRS c g0 samplingRate W, []⟩ log L) :
    let d0 := Decoder.new mem memRS c g0 samplingRate W
    (NeverOverruns g x ⟨0, d0, []⟩ log ↔
        Spaced (eventFrames mem memRS c g g0 samplingRate W x) W (hopSize samplingRate) (log.map Prod.fst)) ∧
      (NeverOverruns g x ⟨0, d0, []⟩ log → ∃ n, L.frames =
        (List.range n).map (FrameBuffer.window W (hopSize samplingRate) d0.frames.mAnalBufferFloat x)) ∧
      (HasRoom g x ⟨0, d0, []⟩ log ↔ Drained g x ⟨0, d0, []⟩ log) ∧
      (Drained g x ⟨0, d0, []⟩ log → ∃ n, L.frames =
        (List.range n).map (FrameBuffer.window W (hopSize samplingRate) d0.frames.mAnalBufferFloat x)) := by
  refine ⟨run_neverOverruns hHW h, fun hnever => ?_, ⟨fun hroom l size r L1 hl hrun hr => ?_,
    fun hd l L1 hl hrun size hsmall => ?_⟩, fun hd => ?_⟩
  · obtain ⟨n, hn, -⟩ := run_fitting hHW h hnever
    exact ⟨n, hn.frames⟩
  · have hfit := hroom _ L1 hl hrun _ (le_refl (3 * L1.decoder.frames.mWindowSize))
    have hroom' : HasRoom g x _ (l ++ [(size, r)]) := fun l' L' hl' => hroom l' L' (hl'.trans hl)
    obtain ⟨n, hn, -⟩ := run_fitting hHW hrun (hroom'.neverOverruns hrun)
    unfold Fits at hfit
    rw [hn.tracks.window] at hfit ⊢
    have hfit : L1.decoder.unread + 3 * W ≤ 4 * W - 1 := hfit
    have hpos := hopSize_pos samplingRate
    show L1.decoder.unread < W
    omega
  · obtain ⟨n, hn, hlt⟩ := run_drained hHW hrun fun l' s r L' hl' => hd l' s r L' (hl'.trans hl)
    unfold Fits Small at *
    rw [hn.tracks.window] at *
    have hsmall : size ≤ 3 * W := hsmall
    show L1.decoder.unread + size ≤ 4 * W - 1
    omega
  · obtain ⟨n, hn, -⟩ := run_drained hHW h hd
    exact ⟨n, hn.frames⟩

end Runs

/-- A whole message, hop by hop. -/
theorem ring_never_overruns_chord :
    ∃ log L, Run (listen Small initial (chord 267)) ⟨0, audible, []⟩ log L ∧ -3 ∈ results log ∧
      HasRoom initial (chord 267) ⟨0, audible, []⟩ log ∧
      Spaced (eventFrames default default .AudibleMultiTone initial initial 44100 2048 (chord 267)) 2048
        (hopSize (44100 : ℝ)) (log.map Prod.fst) := by
  have hsound := chord_sounds (d := 267) (by decide) (by decide) (by decide)
  obtain ⟨log, L, hrun, hplay, -, hend, hunread⟩ := play Small (g := initial) chord_tokens.1 hsound rfl
    (fun d size hd hsize => by unfold Small; omega) (N := 360)
    (fun n _ _ _ => chord_tokens.2 _ (Nat.mod_lt _ (by decide))) 360 le_rfl
  obtain ⟨hspaced, -, hroom, -⟩ := ring_never_overruns ((hopSize_le (44100 : ℝ)).trans (by decide)) hrun
  have hdrained : Drained initial (chord 267) ⟨0, audible, []⟩ log := fun l size r L1 hl hrun1 _ =>
    hunread _ L1 hl (by simp) hrun1
  exact ⟨log, L, hrun, hend.2 le_rfl, hroom.2 hdrained, hspaced.1 ((hroom.2 hdrained).neverOverruns hrun)⟩

/-- The call that hears the chord, with a chunk of three windows, leaves most of it unread, and the next chunk of three
windows does not fit. -/
theorem chord_overruns :
    ∃ (log : List (ℕ × ℤ)) (L : Listening ℝ), Run (listen Small initial (chord 267)) ⟨0, audible, []⟩ log L ∧
      Small L.decoder 6144 ∧ ¬ Fits L.decoder 6144 := by
  obtain ⟨log, L, hrun, -, hwindow, hunread⟩ := chord_starts Small 6144
    (fun d size hd hsize => by unfold Small; omega) (by decide) (by decide) fun d hd _ => by unfold Small; omega
  refine ⟨_, L, hrun, ?_, fun hfits => ?_⟩
  · unfold Small
    omega
  · unfold Fits at hfits
    omega

end Decoder

end Undertone
