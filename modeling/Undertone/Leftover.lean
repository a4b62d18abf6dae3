import Undertone.Following

/-!
# Notes left over from an earlier search

During a message `AnalyzeToken` moves the write position of the ring and notes nothing, and only the read position of
the active mode moves with it. So when the decoder of all modes searches again, its rings still hold notes from before
the message. A trace stamps every slot with the number of the frame noted there; `Kept` says which slots of a ring are
older than the last `-3`, and `search_from_scratch` when a start is found without them.
-/

namespace Undertone

open CountedLoop RingBuffer Globals

namespace Analysis

variable {F D : Type} [Doubles D] [Floats F D] [CFFTOoura F]

/-! ## When the notes were made -/

/-- `rankTones` writes the notes of frame `k` to the slot at the write position. -/
def stampMode (k t : ℕ) (A : Analysis F) (stamps : ℕ → ℕ → ℕ) : ℕ → ℕ → ℕ :=
  set2 stamps t (A.mWritePosInBlockCircularBuffer % A.mSizeBlockCircularBuffer) k

/-- The stamps of the loop over the modes, which ends with the first mode that finds the start tokens. -/
def stampModes (k : ℕ) : ℕ → ℕ → Analysis F → (ℕ → ℕ → ℕ) → ℕ → ℕ → ℕ
  | 0, _, _, stamps => stamps
  | lanes + 1, t, A, stamps =>
    let stamps := stampMode k t A stamps
    let (found, A) := searchMode t A
    if found then stamps else stampModes k lanes (t + 1) A stamps

/-- The note at offset `i` of a window of `n` is counted toward the first or the second start token. -/
def Counted (n i : ℕ) (note : ℤ × ℤ) : Prop :=
  i < n / 2 ∧ note.1 = idxTonesFrontDoorToken1.1 ∨
    n / 2 ≤ i ∧ (note.1 = idxTonesFrontDoorToken2.1 ∨ note.2 = idxTonesFrontDoorToken2.1)

instance (n i : ℕ) (note : ℤ × ℤ) : Decidable (Counted n i note) := inferInstanceAs (Decidable (_ ∨ _))

/-- In the loop over the modes, which began in `A0`: the modes before `t` have found nothing. -/
structure Rounds (A0 : Analysis F) (t : ℕ) (A : Analysis F) : Prop where
  size : A.mSizeBlockCircularBuffer = A0.mSizeBlockCircularBuffer
  write : A.mWritePosInBlockCircularBuffer =
    if t = 0 then A0.mWritePosInBlockCircularBuffer
    else (A0.mWritePosInBlockCircularBuffer + 1) % A0.mSizeBlockCircularBuffer
  lane : ∀ s, t ≤ s → A.lane s = A0.lane s

/-- The slot of mode `t` for the frame that comes next. -/
def slot (A : Analysis F) (t : ℕ) : ℕ := (A.mWritePosInBlockCircularBuffer + lag t) % A.mSizeBlockCircularBuffer

/-- With the next frame the window of mode `t` is full. -/
def Full (A : Analysis F) (t : ℕ) : Prop :=
  A.mSizeBlockCircularBuffer ≤ filled A.mSizeBlockCircularBuffer (A.lane t).mReadPosInBlockCircularBuffer
    ((A.mWritePosInBlockCircularBuffer + 1) % A.mSizeBlockCircularBuffer) + 1

omit [Doubles D] [Floats F D] [CFFTOoura F] in
/-- The search itself leaves the notes as they are. -/
theorem searchLoop_notes {found : ℕ → Analysis F → Bool} {t : ℕ} : ∀ (fuel : ℕ) (A : Analysis F) (s : ℕ),
    notes ((searchLoop found t fuel A).2.lane s) = notes (A.lane s)
  | 0, _, _ => rfl
  | fuel + 1, A, s => by
    unfold searchLoop
    split
    · split
      · exact setRead_notes A t s _
      · exact (searchLoop_notes fuel (advanceReadPos t A) s).trans (setRead_notes A t s _)
    · rfl

omit [Doubles D] [Floats F D] [CFFTOoura F] in
/-- A search that finds the start tokens has a full window. -/
theorem searchLoop_found {found : ℕ → Analysis F → Bool} {t : ℕ} {fuel : ℕ} {A : Analysis F}
    (h : (searchLoop found t fuel A).1 = true) :
    A.mSizeBlockCircularBuffer ≤ A.getSizeFilledBlockCircularBuffer t + 1 := by
  cases fuel with
  | zero => exact absurd h (by simp [searchLoop])
  | succ fuel =>
    unfold searchLoop at h
    split at h
    · omega
    · exact absurd h (by simp)

omit [CFFTOoura F] in
/-- A mode notes the frame in its slot, and nothing else. -/
theorem searchMode_notes (t : ℕ) (A : Analysis F) {pos : ℕ}
    (hpos : pos ≠ A.mWritePosInBlockCircularBuffer % A.mSizeBlockCircularBuffer) :
    notes ((searchMode t A).2.lane t) pos = notes (A.lane t) pos := by
  rw [searchMode_eq, searchLoop_notes, looking_lane, rankTones_notes, put, Function.update_of_ne hpos]

section Loop

variable {A0 A : Analysis F} {t k : ℕ} {stamps : ℕ → ℕ → ℕ}

omit [Doubles D] [Floats F D] [CFFTOoura F] in
theorem Rounds.slot (h : Rounds A0 t A) :
    A.mWritePosInBlockCircularBuffer % A.mSizeBlockCircularBuffer = A0.slot t := by
  rw [h.write, h.size, Analysis.slot, lag]
  split
  · rfl
  · exact Nat.mod_mod _ _

omit [CFFTOoura F] in
theorem Rounds.looking_write (h : Rounds A0 t A) : (looking t A).mWritePosInBlockCircularBuffer =
    (A0.mWritePosInBlockCircularBuffer + 1) % A0.mSizeBlockCircularBuffer := by
  have hw := h.write
  unfold looking
  by_cases ht : t = 0
  · rw [if_pos ht] at hw ⊢
    show (A.mWritePosInBlockCircularBuffer + 1) % A.mSizeBlockCircularBuffer = _
    rw [hw, h.size]
  · rw [if_neg ht] at hw ⊢
    exact hw

omit [CFFTOoura F] in
theorem Rounds.next (h : Rounds A0 t A) (hmissed : (searchMode t A).1 = false) :
    Rounds A0 (t + 1) (searchMode t A).2 := by
  obtain ⟨hsize, hwrite, hlane⟩ := searchLoop_missed hmissed
  refine ⟨hsize.trans ((looking_size t A).trans h.size), ?_, fun s hs => ?_⟩
  · rw [if_neg (Nat.succ_ne_zero t)]
    exact hwrite.trans h.looking_write
  · exact (hlane s (by omega)).trans ((looking_lane_of_ne (by omega) A).trans (h.lane s (by omega)))

omit [CFFTOoura F] in
/-- A mode that finds the start tokens: its window is full, and holds the notes from before but for its slot. -/
theorem Rounds.found (h : Rounds A0 t A) (hfound : (searchMode t A).1 = true) :
    Full A0 t ∧ ∀ pos, pos ≠ A0.slot t → notes ((searchMode t A).2.lane t) pos = notes (A0.lane t) pos := by
  have hread : ((looking t A).lane t).mReadPosInBlockCircularBuffer = (A0.lane t).mReadPosInBlockCircularBuffer := by
    rw [looking_lane]
    simp only [rankTones, setLane, Function.update_self]
    exact congrArg Lane.mReadPosInBlockCircularBuffer (h.lane t (le_refl t))
  refine ⟨?_, fun pos hpos => ?_⟩
  · rw [searchMode_eq] at hfound
    have hfull := searchLoop_found hfound
    rw [getSizeFilledBlockCircularBuffer, looking_size, h.looking_write, hread, h.size] at hfull
    exact hfull
  · rw [searchMode_notes t A (h.slot ▸ hpos), h.lane t (le_refl t)]

omit [CFFTOoura F] in
theorem Rounds.stamp (h : Rounds A0 t A) (k : ℕ) (stamps : ℕ → ℕ → ℕ) (s pos : ℕ) :
    stampMode k t A stamps s pos = if s = t ∧ pos = A0.slot t then k else stamps s pos := by
  rw [stampMode, h.slot, set2_apply]

omit [CFFTOoura F] in
/-- The loop over the modes stamps the slots of the frame, and no others. -/
theorem stampModes_of_ne : ∀ (modes : ℕ) {t : ℕ} {A : Analysis F} {stamps : ℕ → ℕ → ℕ} {s pos : ℕ}, Rounds A0 t A →
    pos ≠ A0.slot s → stampModes k modes t A stamps s pos = stamps s pos
  | 0, _, _, _, _, _, _, _ => rfl
  | modes + 1, t, A, stamps, s, pos, h, hpos => by
    have hmode : stampMode k t A stamps s pos = stamps s pos := by
      rw [h.stamp, if_neg]
      rintro ⟨rfl, hs⟩
      exact hpos hs
    have hnext := h.next
    unfold stampModes
    rcases hs : searchMode t A with ⟨found, B⟩
    rw [hs] at hnext
    cases found with
    | true => exact hmode
    | false => exact (stampModes_of_ne modes (hnext rfl) hpos).trans hmode

omit [CFFTOoura F] in
theorem stampModes_eq_or : ∀ (modes t : ℕ) (A : Analysis F) (stamps : ℕ → ℕ → ℕ) (s pos : ℕ),
    stampModes k modes t A stamps s pos = stamps s pos ∨ stampModes k modes t A stamps s pos = k
  | 0, _, _, _, _, _ => Or.inl rfl
  | modes + 1, t, A, stamps, s, pos => by
    have hmode : stampMode k t A stamps s pos = stamps s pos ∨ stampMode k t A stamps s pos = k := by
      rw [stampMode, set2_apply]
      split
      · exact Or.inr rfl
      · exact Or.inl rfl
    unfold stampModes
    rcases searchMode t A with ⟨found, B⟩
    cases found with
    | true => exact hmode
    | false =>
      rcases stampModes_eq_or modes (t + 1) B (stampMode k t A stamps) s pos with h | h
      · exact hmode.imp h.trans h.trans
      · exact Or.inr h

omit [CFFTOoura F] in
/-- A frame that no mode finds the start tokens with is noted by every mode. -/
theorem searchModes_missed : ∀ (modes : ℕ) {t : ℕ} {A : Analysis F} (stamps : ℕ → ℕ → ℕ), Rounds A0 t A →
    (searchModes modes t A).1 = 0 →
    Rounds A0 (t + modes) (searchModes modes t A).2 ∧
      ∀ s, t ≤ s → s < t + modes → stampModes k modes t A stamps s (A0.slot s) = k
  | 0, t, A, _, h, _ => ⟨h, fun s hts hs => absurd hs (by omega)⟩
  | modes + 1, t, A, stamps, h, h0 => by
    have hnext := h.next
    have hmode := h.stamp k stamps t (A0.slot t)
    rw [if_pos ⟨rfl, rfl⟩] at hmode
    unfold stampModes
    unfold searchModes at h0 ⊢
    rcases hs : searchMode t A with ⟨found, B⟩
    rw [hs] at hnext h0
    cases found with
    | true =>
      have h0 : 1 + (t : ℤ) = 0 := h0
      omega
    | false =>
      have h0 : (searchModes modes (t + 1) B).1 = 0 := h0
      obtain ⟨hrounds, hstamps⟩ := searchModes_missed modes (stampMode k t A stamps) (hnext rfl) h0
      refine ⟨?_, fun s hts hs => ?_⟩
      · rw [show t + (modes + 1) = t + 1 + modes by omega]
        exact hrounds
      · rcases Nat.eq_or_lt_of_le hts with rfl | hlt
        · exact (stampModes_eq_or modes (t + 1) B (stampMode k t A stamps) t (A0.slot t)).elim
            (fun h => h.trans hmode) id
        · exact hstamps s hlt (by omega)

omit [CFFTOoura F] in
/-- A frame that mode `u` finds the start tokens with is noted by it. -/
theorem searchModes_started : ∀ (modes : ℕ) {t u : ℕ} {A : Analysis F} (stamps : ℕ → ℕ → ℕ), Rounds A0 t A →
    (searchModes modes t A).1 = 1 + u →
    Full A0 u ∧ stampModes k modes t A stamps u (A0.slot u) = k ∧
      ∀ pos, pos ≠ A0.slot u → notes ((searchModes modes t A).2.lane u) pos = notes (A0.lane u) pos
  | 0, t, u, A, _, h, hu => by
    have hu : (0 : ℤ) = 1 + u := hu
    omega
  | modes + 1, t, u, A, stamps, h, hu => by
    have hnext := h.next
    have hfound := h.found
    have hmode := h.stamp k stamps t (A0.slot t)
    rw [if_pos ⟨rfl, rfl⟩] at hmode
    unfold stampModes
    unfold searchModes at hu ⊢
    rcases hs : searchMode t A with ⟨found, B⟩
    rw [hs] at hnext hfound hu
    cases found with
    | true =>
      have hu : 1 + (t : ℤ) = 1 + u := hu
      obtain rfl : t = u := by omega
      obtain ⟨hfull, hnotes⟩ := hfound rfl
      exact ⟨hfull, hmode, hnotes⟩
    | false => exact searchModes_started modes (stampMode k t A stamps) (hnext rfl) hu

end Loop

/-! ## Positions -/

/-- All positions are of a ring of `n` slots. -/
structure InRing (n : ℕ) (A : Analysis F) : Prop where
  size : A.mSizeBlockCircularBuffer = n
  write : 0 < n → A.mWritePosInBlockCircularBuffer < n
  read : 0 < n → ∀ t < 3, (A.lane t).mReadPosInBlockCircularBuffer < n

section Positions

variable {n : ℕ} {A A' : Analysis F}

omit [Doubles D] [Floats F D] [CFFTOoura F] in
theorem InRing.of_eq (h : InRing n A) (hsize : A'.mSizeBlockCircularBuffer = A.mSizeBlockCircularBuffer)
    (hwrite : A'.mWritePosInBlockCircularBuffer = A.mWritePosInBlockCircularBuffer)
    (hread : ∀ t, (A'.lane t).mReadPosInBlockCircularBuffer = (A.lane t).mReadPosInBlockCircularBuffer) :
    InRing n A' :=
  ⟨hsize.trans h.size, fun hn => hwrite ▸ h.write hn, fun hn t ht => hread t ▸ h.read hn t ht⟩

omit [Doubles D] [Floats F D] [CFFTOoura F] in
theorem InRing.setRead (h : InRing n A) {r : ℕ} (hr : 0 < n → r < n) (t : ℕ) :
    InRing n (A.setLane t fun L => { L with mReadPosInBlockCircularBuffer := r }) := by
  refine ⟨h.size, h.write, fun hn s hs => ?_⟩
  by_cases hst : s = t
  · subst hst
    simp only [setLane, Function.update_self]
    exact hr hn
  · simp only [setLane, Function.update_of_ne hst]
    exact h.read hn s hs

omit [Doubles D] [Floats F D] [CFFTOoura F] in
theorem InRing.advanceWritePos (h : InRing n A) : InRing n A.advanceWritePos :=
  ⟨h.size, fun hn => by
    show (A.mWritePosInBlockCircularBuffer + 1) % A.mSizeBlockCircularBuffer < n
    rw [h.size]
    exact Nat.mod_lt _ hn, h.read⟩

omit [Doubles D] [Floats F D] [CFFTOoura F] in
theorem InRing.searchLoop {found : ℕ → Analysis F → Bool} {t : ℕ} :
    ∀ {fuel : ℕ} {A : Analysis F}, InRing n A → InRing n (searchLoop found t fuel A).2
  | 0, _, h => h
  | fuel + 1, A, h => by
    have hnext : InRing n (advanceReadPos t A) :=
      h.setRead (fun hn => show ((A.lane t).mReadPosInBlockCircularBuffer + 1) % A.mSizeBlockCircularBuffer < n by
        rw [h.size]
        exact Nat.mod_lt _ hn) t
    have hbegin : InRing n (beginMessage t A) := (h.setRead h.write t).of_eq rfl rfl fun _ => rfl
    unfold Analysis.searchLoop
    split
    · split
      · exact hbegin
      · exact hnext.searchLoop
    · exact h

omit [CFFTOoura F] in
theorem InRing.looking (h : InRing n A) (t : ℕ) : InRing n (looking t A) := by
  have hrank : InRing n (rankTones t A) := h.of_eq rfl rfl fun s => by
    by_cases hs : s = t
    · subst hs
      simp only [rankTones, setLane, Function.update_self]
      rfl
    · simp only [rankTones, setLane, Function.update_of_ne hs]
      rfl
  unfold Analysis.looking
  split
  · exact hrank.advanceWritePos
  · exact hrank

omit [CFFTOoura F] in
theorem InRing.searchModes : ∀ (modes t : ℕ) {A : Analysis F}, InRing n A → InRing n (searchModes modes t A).2
  | 0, _, _, h => h
  | modes + 1, t, A, h => by
    have hmode : InRing n (searchMode t A).2 := by
      rw [searchMode_eq]
      exact (h.looking t).searchLoop
    unfold Analysis.searchModes
    rcases hs : searchMode t A with ⟨found, B⟩
    rw [hs] at hmode
    cases found with
    | true => exact hmode
    | false => exact InRing.searchModes modes (t + 1) hmode

omit [Doubles D] [Floats F D] [CFFTOoura F] in
theorem InRing.consumeBlock (h : InRing n A) (t : ℕ) : InRing n (consumeBlock t A) := by
  have hread : InRing n (A.setLane t fun L => { L with mReadPosInBlockCircularBuffer :=
      (A.mEndStartTokenPosInBlockCircularBuffer +
        (A.mAccumulatedDecodingFrames + A.mSizeBlockCircularBuffer + 1) / 2) % A.mSizeBlockCircularBuffer }) :=
    h.setRead (fun hn => by
      rw [h.size]
      exact Nat.mod_lt _ hn) t
  exact hread.of_eq rfl rfl fun _ => rfl

theorem InRing.AnalyzeToken (h : InRing n A) (g : Globals F) (mode mDecoding : ℤ) (t : ℕ) (frame : ℕ → F) :
    InRing n (A.AnalyzeToken g mode mDecoding t frame).2 := by
  have hstored : InRing n (storeSpectrum frame A) := h.of_eq rfl rfl fun _ => rfl
  show InRing n (if _ then _ else _ : ℤ × Analysis F).2
  split
  · obtain ⟨A', hkeep, hA'⟩ := decodeBlock_moves g mode mDecoding t (storeSpectrum frame A).advanceWritePos
    rw [hA']
    exact (hstored.advanceWritePos.of_eq hkeep.size hkeep.write hkeep.read).consumeBlock t
  · exact hstored.advanceWritePos

omit [Doubles D] [Floats F D] [CFFTOoura F] in
/-- A full window begins behind the slot of the next frame, and its slots follow in the order of the ring. -/
theorem InRing.blockPos (h : InRing n A) (hn : 0 < n) {t : ℕ} (ht : t < 3) (hfull : Full A t) (i : ℕ) :
    A.blockPos t i = (A.mWritePosInBlockCircularBuffer + lag t + (1 + (i + 1 - lag t) % n)) % n := by
  have hlag : lag t ≤ 1 := by
    unfold lag
    split <;> omega
  have hr := h.read hn t ht
  have hw' := Nat.mod_lt (A.mWritePosInBlockCircularBuffer + 1) hn
  have hread : (A.lane t).mReadPosInBlockCircularBuffer = (A.mWritePosInBlockCircularBuffer + 2) % n := by
    have hsum : (A.mWritePosInBlockCircularBuffer + 2) % n = ((A.mWritePosInBlockCircularBuffer + 1) % n + 1) % n := by
      rw [Nat.mod_add_mod]
    unfold Full filled at hfull
    rw [h.size] at hfull
    rw [hsum]
    generalize (A.mWritePosInBlockCircularBuffer + 1) % n = w at hfull hw'
    split at hfull
    · rw [show w + 1 = n by omega, Nat.mod_self]
      omega
    · rw [Nat.mod_eq_of_lt (by omega : w + 1 < n)]
      omega
  have hsum : A.mWritePosInBlockCircularBuffer + lag t + (1 + (i + 1 - lag t) % n) =
      A.mWritePosInBlockCircularBuffer + lag t + 1 + (i + 1 - lag t) % n := by omega
  have hsum' : A.mWritePosInBlockCircularBuffer + lag t + 1 + (i + 1 - lag t) =
      A.mWritePosInBlockCircularBuffer + 2 + i := by omega
  rw [Analysis.blockPos, h.size, hread, Nat.mod_add_mod, hsum, Nat.add_mod_mod, hsum']

end Positions

end Analysis

/-! ## Traces -/

/-- What the loop of `DecodeAudioBuffer` does with a frame: search, go on with the message, or end it. -/
theorem Core.step_cases {F D : Type} [Doubles D] [Floats F D] [CFFTOoura F] {c : DecoderClass} {g : Globals F}
    {frame : ℕ → F} {C C' : Core F} {r : Option ℤ} (h : Core.step c g frame C = (r, C')) :
    (C.mDecoding = 0 ∧ ∃ ret A, C.AnalyzeStartTokens c frame = (ret, A) ∧
      if Core.isStart c ret then r = some (-2) ∧ C' = C.begin c ret A else r = none ∧ C' = { C with analysis := A }) ∨
    (C.mDecoding ≠ 0 ∧ r ≠ some (-3) ∧ C'.mDecoding ≠ 0 ∧
      (C'.analysis = (C.AnalyzeToken c g frame).2 ∨ C'.analysis = C.analysis)) ∨
    (C.mDecoding ≠ 0 ∧ r = some (-3) ∧ C' = C.finish c) := by
  unfold Core.step at h
  by_cases h0 : C.mDecoding = 0
  · refine Or.inl ⟨h0, ?_⟩
    rcases hA : C.AnalyzeStartTokens c frame with ⟨ret, A⟩
    rw [if_pos h0, hA] at h
    refine ⟨ret, A, rfl, ?_⟩
    by_cases hret : Core.isStart c ret = true
    · obtain ⟨rfl, rfl⟩ := Prod.mk.inj ((if_pos hret).symm.trans h)
      rw [if_pos hret]
      exact ⟨rfl, rfl⟩
    · obtain ⟨rfl, rfl⟩ := Prod.mk.inj ((if_neg hret).symm.trans h)
      rw [if_neg hret]
      exact ⟨rfl, rfl⟩
  · rw [if_neg h0] at h
    by_cases hmessage : C.mDecoding > 0 ∧ C.mDecoding ≤ numMessageTokens
    · refine Or.inr (Or.inl ⟨h0, ?_⟩)
      rcases hA : C.AnalyzeToken c g frame with ⟨ret, A⟩
      rw [if_pos hmessage, hA] at h
      by_cases hret : ret ≥ 0
      · obtain ⟨rfl, rfl⟩ := Prod.mk.inj ((if_pos hret).symm.trans h)
        exact ⟨fun heq => absurd (Option.some.inj heq) (by omega), by
          show C.mDecoding + 1 ≠ 0
          omega, Or.inl rfl⟩
      · obtain ⟨rfl, rfl⟩ := Prod.mk.inj ((if_neg hret).symm.trans h)
        exact ⟨by simp, h0, Or.inl rfl⟩
    · rw [if_neg hmessage] at h
      by_cases hend : C.mDecoding > numMessageTokens
      · obtain ⟨rfl, rfl⟩ := Prod.mk.inj ((if_pos hend).symm.trans h)
        exact Or.inr (Or.inr ⟨h0, rfl, rfl⟩)
      · obtain ⟨rfl, rfl⟩ := Prod.mk.inj ((if_neg hend).symm.trans h)
        exact Or.inr (Or.inl ⟨h0, by simp, h0, Or.inr rfl⟩)

namespace Analysis

variable {F D : Type} [Doubles D] [Floats F D] [CFFTOoura F]

/-- A message keeps the notes of the search before it. -/
theorem message_notes {c : DecoderClass} (hc : c.isMultiTone = true) {C : Core F} (h0 : C.mDecoding ≠ 0)
    (g : Globals F) (frame : ℕ → F) (s : ℕ) :
    notes ((Core.step c g frame C).2.analysis.lane s) = notes (C.analysis.lane s) := by
  rcases hs : Core.step c g frame C with ⟨r, C'⟩
  rcases Core.step_cases hs with ⟨hd, -⟩ | ⟨-, -, -, hA | hA⟩ | ⟨-, -, hC'⟩
  · exact absurd hd h0
  · show notes (C'.analysis.lane s) = _
    rw [hA, Core.AnalyzeToken_multiTone hc]
    exact AnalyzeToken_notes g _ _ _ frame C.analysis s
  · exact congrArg (fun A : Analysis F => notes (A.lane s)) hA
  · show notes (C'.analysis.lane s) = _
    rw [hC', Core.finish, if_pos hc]
    rfl

/-- A frame of a search is noted in the slot at the write position. -/
theorem search_notes (frame : ℕ → F) (A : Analysis F) (pos : ℕ)
    (hpos : pos ≠ A.mWritePosInBlockCircularBuffer % A.mSizeBlockCircularBuffer) :
    notes ((A.AnalyzeStartTokens 1 frame).2.lane 0) pos = notes (A.lane 0) pos := by
  have hmode : notes ((searchMode 0 (storeSpectrum frame A)).2.lane 0) pos = notes (A.lane 0) pos :=
    searchMode_notes 0 (storeSpectrum frame A) hpos
  unfold AnalyzeStartTokens searchModes
  rcases hB : searchMode 0 (storeSpectrum frame A) with ⟨found, B⟩
  rw [hB] at hmode
  cases found with
  | true => exact hmode
  | false => exact hmode

end Analysis

open Analysis in
/-- The audible decoder notes a frame of a search in no slot but its own. -/
theorem Core.Waiting.notes_step {rank : ℕ → ℕ → ℕ} {T0 n : ℕ} {C C' : Core ℝ} (h : Core.Waiting rank T0 n C)
    {g : Globals ℝ} {frame : ℕ → ℝ} (hC : Core.step .AudibleMultiTone g frame C = (none, C')) {pos : ℕ}
    (hpos : pos ≠ (T0 + n) % 36) : notes (C'.analysis.lane 0) pos = notes (C.analysis.lane 0) pos := by
  have hwrite := h.searching.write
  have hsize := h.searching.settings.size
  rcases Core.step_cases hC with ⟨-, ret, A, hA, hcase⟩ | ⟨hd, -⟩ | ⟨hd, -⟩
  · have hA : C.analysis.AnalyzeStartTokens 1 frame = (ret, A) := hA
    have hkeep : notes (A.lane 0) pos = notes (C.analysis.lane 0) pos := by
      have hkeep := search_notes frame C.analysis pos (by rw [hwrite, hsize, Nat.mod_mod]; exact hpos)
      rwa [hA] at hkeep
    split at hcase
    · exact absurd hcase.1 (by simp)
    · rw [hcase.2]
      exact hkeep
  · exact absurd h.decoding hd
  · exact absurd h.decoding hd

/-- The analysis of the decoder of all modes, with what a trace records of its frames. -/
structure Trace (F : Type) where
  core : Core F
  /-- The number of frames. -/
  frames : ℕ
  /-- The number of frames at the most recent `-3`. -/
  ended : ℕ
  /-- The number of frames searched since. -/
  searched : ℕ
  /-- For each mode and slot of its ring, the number of the frame noted there; `0` before the first. -/
  stamps : ℕ → ℕ → ℕ

namespace Trace

open Analysis

variable {F D : Type} [Doubles D] [Floats F D] [CFFTOoura F]

def new (C : Core F) : Trace F := ⟨C, 0, 0, 0, fun _ _ => 0⟩

def move (m : Core.Move F) (T : Trace F) : Option (Option ℤ × Trace F) :=
  (Core.move .AllMultiTone m T.core).map fun (r, C) =>
    match m with
    | .frame _ frame =>
      (r, { core := C
            frames := T.frames + 1
            ended := if r = some (-3) then T.frames + 1 else T.ended
            searched :=
              if r = some (-3) then 0 else if T.core.mDecoding = 0 then T.searched + 1 else T.searched
            stamps :=
              if T.core.mDecoding = 0 then
                stampModes (T.frames + 1) 3 0 (storeSpectrum frame T.core.analysis) T.stamps
              else T.stamps })
    | .poll => (r, { T with core := C })

/-- Every run of the analysis has its trace. -/
theorem exists_run {T : Trace F} {log : List (Core.Move F × Option ℤ)} {C : Core F}
    (h : Run (Core.move .AllMultiTone) T.core log C) : ∃ T', Run move T log T' ∧ T'.core = C := by
  refine h.follow core fun m T r C hm => ?_
  unfold move
  rw [hm]
  cases m with
  | frame g frame => exact ⟨_, rfl, rfl⟩
  | poll => exact ⟨_, rfl, rfl⟩

/-- A trace changes nothing of what it records. -/
theorem move_core {T T' : Trace F} {m : Core.Move F} {r : Option ℤ} (h : move m T = some (r, T')) :
    Core.move .AllMultiTone m T.core = some (r, T'.core) := by
  obtain ⟨⟨r', C⟩, hC, hT⟩ := Option.map_eq_some_iff.1 h
  rw [hC]
  cases m with
  | frame g frame =>
    obtain ⟨rfl, rfl⟩ := Prod.mk.inj hT
    rfl
  | poll =>
    obtain ⟨rfl, rfl⟩ := Prod.mk.inj hT
    rfl

theorem run_core {T T' : Trace F} {log : List (Core.Move F × Option ℤ)} (h : Run move T log T') :
    Run (Core.move .AllMultiTone) T.core log T'.core :=
  h.project core fun _ _ _ _ => move_core

/-- `AnalyzeStartTokens` reports a start for mode `t` with the next frame. -/
def Reports (frame : ℕ → F) (T : Trace F) (t : ℕ) : Prop :=
  T.core.mDecoding = 0 ∧ (T.core.AnalyzeStartTokens .AllMultiTone frame).1 = 1 + t

/-- Of the notes in the window of mode `t`, which begins at its read position in `T`, those that were counted on the way
to `T'` are of frames analysed after the most recent `-3`. -/
def CountsFresh (T T' : Trace F) (t : ℕ) : Prop :=
  ∀ i < T.core.analysis.mSizeBlockCircularBuffer,
    Counted T.core.analysis.mSizeBlockCircularBuffer i
      (notes (T'.core.analysis.lane t) (T.core.analysis.blockPos t i)) →
    T'.ended < T'.stamps t (T.core.analysis.blockPos t i)

/-- Every start in the run is found with frames analysed after the most recent `-3`. -/
def FromScratch (T0 : Trace F) (log : List (Core.Move F × Option ℤ)) : Prop :=
  ∀ l g frame r T T' t, l ++ [(.frame g frame, r)] <+: log → Run move T0 l T →
    move (.frame g frame) T = some (r, T') → T.Reports frame t → CountsFresh T T' t

/-- The note at offset `i` of a full window of mode `t` is not of one of the frames searched since the last `-3`, nor of
the next one. -/
def Leftover (T : Trace F) (t i : ℕ) : Prop :=
  (i + 1 - lag t) % T.core.analysis.mSizeBlockCircularBuffer + T.searched + 1 <
    T.core.analysis.mSizeBlockCircularBuffer

/-- No note left over in the window of mode `t` is one that the search counts. -/
def SkipsLeftover (T : Trace F) (t : ℕ) : Prop :=
  ∀ i < T.core.analysis.mSizeBlockCircularBuffer, T.Leftover t i →
    ¬ Counted T.core.analysis.mSizeBlockCircularBuffer i
      (notes (T.core.analysis.lane t) (T.core.analysis.blockPos t i))

/-- Whenever a frame is searched, no window that is full with it holds notes left over that the search counts. -/
def NoLeftover (T0 : Trace F) (log : List (Core.Move F × Option ℤ)) : Prop :=
  ∀ l g frame r T, l ++ [(.frame g frame, r)] <+: log → Run move T0 l T → T.core.mDecoding = 0 →
    ∀ t < 3, Full T.core.analysis t → T.SkipsLeftover t

/-- No start in the run is found with a window that holds notes left over that are counted. -/
def StartsSkipLeftover (T0 : Trace F) (log : List (Core.Move F × Option ℤ)) : Prop :=
  ∀ l g frame T t, l ++ [(.frame g frame, some (-2))] <+: log → Run move T0 l T → T.Reports frame t → T.SkipsLeftover t

/-- The positions are of the ring, and in a search the slots noted since the last `-3` are the last ones. -/
structure Kept (n : ℕ) (T : Trace F) : Prop where
  inRing : InRing n T.core.analysis
  bound : ∀ t pos, T.stamps t pos ≤ T.frames
  ended : T.ended ≤ T.frames
  recent : T.core.mDecoding = 0 → ∀ t < 3, Recent n (fun pos => T.ended < T.stamps t pos)
    (T.core.analysis.mWritePosInBlockCircularBuffer + lag t) T.searched

section Search

variable {n : ℕ} {T T' : Trace F} {g : Globals F} {frame : ℕ → F} {r : Option ℤ}

/-- The window of the mode that a start is reported for is full. -/
theorem reports_full {t : ℕ} (h : T.Reports frame t) : t < 3 ∧ Full T.core.analysis t := by
  have hret : (searchModes 3 0 (storeSpectrum frame T.core.analysis)).1 = 1 + t := h.2
  have hrange := searchModes_range 3 0 (storeSpectrum frame T.core.analysis)
  have hrounds : Rounds (storeSpectrum frame T.core.analysis) 0 (storeSpectrum frame T.core.analysis) :=
    ⟨rfl, rfl, fun _ _ => rfl⟩
  obtain ⟨hfull, -⟩ := searchModes_started (k := 0) 3 T.stamps hrounds hret
  exact ⟨by omega, hfull⟩

theorem step_reports {t : ℕ} (h : T.Reports frame t) (g : Globals F) : Core.step .AllMultiTone g frame T.core =
    (some (-2), T.core.begin .AllMultiTone (1 + t) (AnalyzeStartTokens 3 frame T.core.analysis).2) := by
  obtain ⟨h0, hret⟩ := h
  have hA : T.core.AnalyzeStartTokens .AllMultiTone frame =
      (1 + (t : ℤ), (AnalyzeStartTokens 3 frame T.core.analysis).2) := Prod.ext hret rfl
  have hstart : Core.isStart .AllMultiTone (1 + (t : ℤ)) = true := decide_eq_true (by omega)
  unfold Core.step
  rw [if_pos h0, hA]
  exact if_pos hstart

theorem exists_move {t : ℕ} (h : T.Reports frame t) (g : Globals F) :
    ∃ T', move (.frame g frame) T = some (some (-2), T') := by
  unfold move
  rw [show Core.move .AllMultiTone (.frame g frame) T.core = some _ from congrArg some (step_reports h g)]
  exact ⟨_, rfl⟩

/-- What a frame does that is reported as a start for mode `t`. -/
theorem move_reports {t : ℕ} (hreports : T.Reports frame t) (hmove : move (.frame g frame) T = some (r, T')) :
    r = some (-2) ∧ T'.ended = T.ended ∧
      T'.stamps = stampModes (T.frames + 1) 3 0 (storeSpectrum frame T.core.analysis) T.stamps ∧
      ∃ A, (AnalyzeStartTokens 3 frame T.core.analysis).2 = A ∧ T'.core.analysis = Core.resetConfidence A := by
  have hstep : Core.move .AllMultiTone (.frame g frame) T.core = some _ := congrArg some (step_reports hreports g)
  unfold move at hmove
  rw [hstep] at hmove
  obtain ⟨rfl, rfl⟩ := Prod.mk.inj (Option.some.inj hmove)
  exact ⟨rfl, by simp, if_pos hreports.1, _, rfl, rfl⟩

/-- A start of mode `t` is found from scratch exactly when its window holds no notes left over that are counted. -/
theorem Kept.reports_iff (h : Kept n T) {t : ℕ} (hreports : T.Reports frame t)
    (hmove : move (.frame g frame) T = some (r, T')) : CountsFresh T T' t ↔ T.SkipsLeftover t := by
  obtain ⟨-, hended, hstamps, A, hA, hcore⟩ := move_reports hreports hmove
  obtain ⟨ht, hfull⟩ := reports_full hreports
  obtain ⟨h0, hret⟩ := hreports
  have hret : (searchModes 3 0 (storeSpectrum frame T.core.analysis)).1 = 1 + t := hret
  have hA : (searchModes 3 0 (storeSpectrum frame T.core.analysis)).2 = A := hA
  have hrounds : Rounds (storeSpectrum frame T.core.analysis) 0 (storeSpectrum frame T.core.analysis) :=
    ⟨rfl, rfl, fun _ _ => rfl⟩
  obtain ⟨-, hslot, hnotes⟩ := searchModes_started (k := T.frames + 1) 3 T.stamps hrounds hret
  have hother : ∀ pos, pos ≠ T.core.analysis.slot t → T'.stamps t pos = T.stamps t pos := fun pos hpos => by
    have hpos : pos ≠ (storeSpectrum frame T.core.analysis).slot t := hpos
    rw [hstamps]
    exact stampModes_of_ne 3 hrounds hpos
  have hnote : ∀ pos, pos ≠ T.core.analysis.slot t →
      notes (T'.core.analysis.lane t) pos = notes (T.core.analysis.lane t) pos := fun pos hpos => by
    rw [hcore, ← hA]
    exact hnotes pos hpos
  have hrecent := h.recent h0 t ht
  have hn := h.inRing.size
  refine forall_congr' fun i => imp_congr_right fun hi => ?_
  have hslotpos : T.core.analysis.slot t = (T.core.analysis.mWritePosInBlockCircularBuffer + lag t) % n := by
    rw [slot, hn]
  rw [hn] at hi
  have hpos := h.inRing.blockPos (by omega) ht hfull i
  have hv := Nat.mod_lt (i + 1 - lag t) (show 0 < n by omega)
  unfold Leftover
  rw [hn]
  by_cases hlast : (i + 1 - lag t) % n + 1 = n
  · -- the slot of this frame
    have hblock : T.core.analysis.blockPos t i = T.core.analysis.slot t := by
      rw [hpos, hslotpos, Nat.add_comm 1, hlast, Nat.add_mod_right]
    have hfresh : T'.ended < T'.stamps t (T.core.analysis.blockPos t i) := by
      have hstamp : T'.stamps t (T.core.analysis.slot t) = T.frames + 1 := by
        rw [hstamps]
        exact hslot
      have hle := h.ended
      rw [hblock, hstamp, hended]
      omega
    exact iff_of_true (fun _ => hfresh) fun hleft => absurd hleft (by omega)
  · have hne : T.core.analysis.blockPos t i ≠ T.core.analysis.slot t := by
      rw [hpos, hslotpos]
      exact (mod_ne (le_refl _) (by omega) (by omega)).symm
    have hiff : T.ended < T.stamps t (T.core.analysis.blockPos t i) ↔ n ≤ 1 + (i + 1 - lag t) % n + T.searched := by
      rw [hpos]
      exact hrecent (1 + (i + 1 - lag t) % n) (by omega)
    rw [hnote _ hne, hother _ hne, hended, hiff]
    constructor
    · intro hfresh hleft hcounted
      have := hfresh hcounted
      omega
    · intro hskips hcounted
      by_contra hold
      exact hskips (by omega) hcounted

end Search

/-! ## Runs -/

section Runs

variable {n : ℕ} {T T' : Trace F} {g : Globals F} {frame : ℕ → F} {r : Option ℤ}

omit [CFFTOoura F] in
theorem kept_new (mem : Decoder F) (memRS : ReedSolomon) (g : Globals F) (samplingRate : F) (windowSize : ℕ) :
    let C := (Decoder.new mem memRS .AllMultiTone g samplingRate windowSize).core
    Kept C.analysis.mSizeBlockCircularBuffer (new C) := by
  intro C
  refine ⟨⟨rfl, fun hn => hn, fun hn t ht => ?_⟩, fun _ _ => le_refl 0, le_refl 0, fun _ t _ => ?_⟩
  · have hread : ((new C).core.analysis.lane t).mReadPosInBlockCircularBuffer = 0 := by
      simp only [C, new, Decoder.new, Decoder.newAnalysis, Decoder.newLane, if_pos (show t < 3 from ht),
        show DecoderClass.AllMultiTone.lanes = 3 from rfl]
    rw [hread]
    exact hn
  · exact recent_none (fun pos => lt_irrefl 0) _

/-- A frame that is searched in vain. -/
theorem Kept.missed (h : Kept n T) (h0 : T.core.mDecoding = 0)
    (hret : (AnalyzeStartTokens 3 frame T.core.analysis).1 = 0) {C : Core F}
    (hC : C.analysis = (AnalyzeStartTokens 3 frame T.core.analysis).2) :
    Kept n ⟨C, T.frames + 1, T.ended, T.searched + 1,
      stampModes (T.frames + 1) 3 0 (storeSpectrum frame T.core.analysis) T.stamps⟩ := by
  have hrounds : Rounds (storeSpectrum frame T.core.analysis) 0 (storeSpectrum frame T.core.analysis) :=
    ⟨rfl, rfl, fun _ _ => rfl⟩
  obtain ⟨hend, hstamps⟩ := searchModes_missed (k := T.frames + 1) 3 T.stamps hrounds hret
  have hn := h.inRing.size
  refine ⟨?_, fun t pos => ?_, Nat.le_succ_of_le h.ended, fun _ t ht => ?_⟩
  · have hstored : InRing n (storeSpectrum frame T.core.analysis) := h.inRing.of_eq rfl rfl fun _ => rfl
    rw [hC]
    exact hstored.searchModes 3 0
  · rcases stampModes_eq_or (k := T.frames + 1) 3 0 (storeSpectrum frame T.core.analysis) T.stamps t pos with hs | hs
    · exact (le_of_eq hs).trans (Nat.le_succ_of_le (h.bound t pos))
    · exact le_of_eq hs
  · have hwrite : C.analysis.mWritePosInBlockCircularBuffer =
        (T.core.analysis.mWritePosInBlockCircularBuffer + 1) % n := by
      rw [hC, ← hn]
      exact hend.write
    have hslot : slot (storeSpectrum frame T.core.analysis) t =
        (T.core.analysis.mWritePosInBlockCircularBuffer + lag t) % n := congrArg (_ % ·) hn
    have hnew := hstamps t (Nat.zero_le t) (by omega)
    rw [hslot] at hnew
    refine ((h.recent h0 t ht).write (fun pos => T.ended < stampModes (T.frames + 1) 3 0
      (storeSpectrum frame T.core.analysis) T.stamps t pos) ?_ fun pos hpos => ?_).congr ?_
    · have hle := h.ended
      rw [hnew]
      omega
    · rw [stampModes_of_ne 3 hrounds (hslot ▸ hpos)]
    · rw [hwrite, Nat.mod_add_mod]
      congr 1
      omega

omit [CFFTOoura F] in
/-- A step that is not part of a search notes nothing. -/
theorem Kept.unsearched (h : Kept n T) {C : Core F} (hC : InRing n C.analysis) (h0 : C.mDecoding ≠ 0) :
    Kept n ⟨C, T.frames + 1, T.ended, T.searched, T.stamps⟩ :=
  ⟨hC, fun t pos => Nat.le_succ_of_le (h.bound t pos), Nat.le_succ_of_le h.ended, fun hz => absurd hz h0⟩

theorem Kept.step (h : Kept n T) {m : Core.Move F} (hmove : move m T = some (r, T')) : Kept n T' := by
  cases m with
  | poll =>
    obtain ⟨rfl, rfl⟩ := Prod.mk.inj (Option.some.inj hmove)
    exact ⟨h.inRing, h.bound, h.ended, h.recent⟩
  | frame g frame =>
    have hstored : InRing n (storeSpectrum frame T.core.analysis) := h.inRing.of_eq rfl rfl fun _ => rfl
    have hrange := searchModes_range 3 0 (storeSpectrum frame T.core.analysis)
    have hsearch := hstored.searchModes 3 0
    rcases hs : Core.step .AllMultiTone g frame T.core with ⟨r', C⟩
    unfold move at hmove
    rw [show Core.move .AllMultiTone (.frame g frame) T.core = some (r', C) from congrArg some hs] at hmove
    obtain ⟨rfl, rfl⟩ := Prod.mk.inj (Option.some.inj hmove)
    rcases Core.step_cases hs with ⟨h0, ret, A, hA, hcase⟩ | ⟨h0, hr, hC0, hA⟩ | ⟨h0, rfl, rfl⟩
    · have hA : searchModes 3 0 (storeSpectrum frame T.core.analysis) = (ret, A) := hA
      rw [hA] at hrange hsearch
      simp only [if_pos h0]
      by_cases hret : Core.isStart .AllMultiTone ret = true
      · -- the message begins
        rw [if_pos hret] at hcase
        obtain ⟨rfl, rfl⟩ := hcase
        simp only [Option.some.injEq, Int.reduceNeg, Int.reduceEq, if_false]
        refine ⟨hsearch.of_eq rfl rfl fun _ => rfl, fun t pos => ?_, Nat.le_succ_of_le h.ended, fun h1 => ?_⟩
        · rcases stampModes_eq_or (k := T.frames + 1) 3 0 (storeSpectrum frame T.core.analysis) T.stamps t pos with
            hs | hs
          · exact (le_of_eq hs).trans (Nat.le_succ_of_le (h.bound t pos))
          · exact le_of_eq hs
        · exact absurd (show (1 : ℤ) = 0 from h1) (by decide)
      · rw [if_neg hret] at hcase
        obtain ⟨rfl, rfl⟩ := hcase
        have hret0 : ret = 0 := by
          have hret : ¬ ret ≥ 1 := fun h => hret (decide_eq_true h)
          have hrange : ret = 0 ∨ (0 : ℤ) + 1 ≤ ret ∧ ret ≤ 0 + 3 := hrange
          omega
        simp only [reduceCtorEq, if_false]
        exact h.missed h0 ((congrArg Prod.fst hA).trans hret0) (congrArg Prod.snd hA).symm
    · -- a frame of a message
      simp only [if_neg h0, if_neg hr]
      refine h.unsearched ?_ hC0
      rcases hA with hA | hA
      · rw [hA, Core.AnalyzeToken_multiTone rfl]
        exact h.inRing.AnalyzeToken g _ _ _ frame
      · exact hA ▸ h.inRing
    · -- the end of a message
      simp only [if_neg h0, if_true]
      refine ⟨h.inRing.of_eq rfl rfl fun _ => rfl, fun t pos => Nat.le_succ_of_le (h.bound t pos), le_refl _,
        fun _ t _ => recent_none (fun pos => ?_) _⟩
      exact Nat.not_lt.2 (Nat.le_succ_of_le (h.bound t pos))

theorem run_kept {T0 : Trace F} (h0 : Kept n T0) {log : List (Core.Move F × Option ℤ)} (h : Run move T0 log T) :
    Kept n T :=
  h.rule (fun _ T => Kept n T) h0 fun _ _ _ _ _ hk hmove => hk.step hmove

/-- Over any run of the decoder of all modes: while no full window holds notes left over that the search counts, every
start is found from scratch; and all starts are found from scratch exactly when the windows that they are found with
hold none. -/
theorem search_from_scratch (mem : Decoder F) (memRS : ReedSolomon) (g : Globals F) (samplingRate : F) (windowSize : ℕ)
    (log : List (Core.Move F × Option ℤ)) :
    let T0 := new (Decoder.new mem memRS .AllMultiTone g samplingRate windowSize).core
    (NoLeftover T0 log → FromScratch T0 log) ∧ (FromScratch T0 log ↔ StartsSkipLeftover T0 log) := by
  intro T0
  have hkept : ∀ {l : List (Core.Move F × Option ℤ)} {T : Trace F}, Run move T0 l T →
      Kept T0.core.analysis.mSizeBlockCircularBuffer T := fun h =>
        run_kept (kept_new mem memRS g samplingRate windowSize) h
  have hiff : FromScratch T0 log ↔ StartsSkipLeftover T0 log := by
    constructor
    · intro h l g frame T t hl hrun hreports
      obtain ⟨T', hmove⟩ := exists_move hreports g
      exact ((hkept hrun).reports_iff hreports hmove).1 (h l g frame _ T T' t hl hrun hmove hreports)
    · intro h l g frame r T T' t hl hrun hmove hreports
      obtain rfl := (move_reports hreports hmove).1
      exact ((hkept hrun).reports_iff hreports hmove).2 (h l g frame T t hl hrun hreports)
  refine ⟨fun hno => hiff.2 fun l g frame T t hl hrun hreports => ?_, hiff⟩
  obtain ⟨ht, hfull⟩ := reports_full hreports
  exact hno l g frame _ T hl hrun hreports.1 t ht hfull

end Runs

/-! ## A note left over that is counted -/

noncomputable def allModes : Trace ℝ := new (Decoder.new default default .AllMultiTone initial 44100 2048).core

theorem allModes_follows : Core.Follows Decoder.audible.core allModes.core :=
  ⟨rfl, fun h => absurd rfl h, rfl, rfl, rfl, rfl, rfl, rfl, rfl, rfl, rfl, rfl, rfl, rfl, fun t _ => by
    simp only [allModes, new, Decoder.new, Decoder.newAnalysis]
    split
    · rfl
    · rfl⟩

/-- `k` frames into the second search, beside the audible decoder. -/
structure Stage (rank : ℕ → ℕ → ℕ) (k : ℕ) (C : Core ℝ) (T : Trace ℝ) : Prop where
  follows : Core.Follows C T.core
  first : k < 35 → Core.Waiting rank 0 k C
  message : 35 ≤ k → k < 360 → ∃ A0, Core.Reading rank A0 35 (k - 35) C
  second : 360 ≤ k → Core.Waiting rank 359 (k - 360) C ∧ T.searched = k - 360
  note : 35 ≤ k → (notes (C.analysis.lane 0) 34).2 = 2

section Stage

variable {rank : ℕ → ℕ → ℕ} {k : ℕ} {C : Core ℝ} {T : Trace ℝ} {frame : ℕ → ℝ}

/-- A frame that both decoders analyse. -/
theorem Stage.move (h : Stage rank k C T)
    (hshort : C.mDecoding = 0 → (C.analysis.AnalyzeStartTokens 1 frame).1 = 0 →
      (C.analysis.mWritePosInBlockCircularBuffer + 1) % C.analysis.mSizeBlockCircularBuffer + 1 <
        C.analysis.mSizeBlockCircularBuffer) {r : Option ℤ} {C' : Core ℝ}
    (hC : Core.step .AudibleMultiTone initial frame C = (r, C')) :
    ∃ T', Trace.move (.frame initial frame) T = some (r, T') ∧ Core.Follows C' T'.core ∧
      T'.searched = if r = some (-3) then 0 else if C.mDecoding = 0 then T.searched + 1 else T.searched := by
  obtain ⟨hr, hfollows⟩ := h.follows.step (g := initial) hshort
  rw [hC] at hr hfollows
  rcases hs : Core.step .AllMultiTone initial frame T.core with ⟨r', C''⟩
  rw [hs] at hr hfollows
  obtain rfl : r' = r := hr
  unfold Trace.move
  rw [show Core.move .AllMultiTone (.frame initial frame) T.core = some (r', C'') from congrArg some hs]
  refine ⟨_, rfl, hfollows, ?_⟩
  simp only [h.follows.decoding]

/-- The message ends with frame 359. -/
theorem Stage.ends (h : Stage rank k C T) {r : Option ℤ} {C' : Core ℝ}
    (hC : Core.step .AudibleMultiTone initial frame C = (r, C')) : r = some (-3) ↔ k = 359 := by
  constructor
  · rintro rfl
    have ho := Core.step_outcome .AudibleMultiTone initial frame C
    rw [hC] at ho
    have h18 := ho.end_inv
    by_cases h35 : k < 35
    · have := (h.first h35).decoding
      omega
    · by_cases h360 : k < 360
      · obtain ⟨A0, hread⟩ := h.message (by omega) h360
        have := hread.onTime.decoding
        omega
      · have := (h.second (by omega)).1.decoding
        omega
  · rintro rfl
    obtain ⟨A0, hread⟩ := h.message (by decide) (by decide)
    obtain ⟨C'', hC'', -⟩ := Core.Reading.finish initial frame hread
    exact congrArg Prod.fst (hC.symm.trans hC'')

/-- A search that began with the first or the last slot of the ring goes on, and notes nothing in slot 34. -/
theorem Stage.wait (h : Stage rank k C T) (hrank : Starts rank) (hs : Sounds rank frame) {T0 n : ℕ} (hn : n + 1 < 35)
    (hwait : Core.Waiting rank T0 n C) (hT0 : T0 % 36 = 0 ∨ T0 % 36 = 35) :
    ∃ C' T', Core.step .AudibleMultiTone initial frame C = (none, C') ∧
      Trace.move (.frame initial frame) T = some (none, T') ∧ Core.Follows C' T'.core ∧
      Core.Waiting rank T0 (n + 1) C' ∧ T'.searched = T.searched + 1 ∧
      (T0 % 36 = 35 → notes (C'.analysis.lane 0) 34 = notes (C.analysis.lane 0) 34) := by
  have hwrite := hwait.searching.write
  have hsize := hwait.searching.settings.size
  obtain ⟨C', hC, hwait'⟩ := hwait.step (g := initial) hrank hn hs
  obtain ⟨T', hT, hfollows, hsearched⟩ := h.move (fun _ _ => by rw [hsize, hwrite]; omega) hC
  refine ⟨C', T', hC, hT, hfollows, hwait', ?_, fun h35 => hwait.notes_step hC (by omega)⟩
  rw [hsearched, if_neg (by simp), if_pos hwait.decoding]

/-- The frame that ends the first search is noted in slot 34. -/
theorem Stage.start (h : Stage rank 34 C T) (hrank : Starts rank) (hs : Sounds rank frame) :
    ∃ C' T', Core.step .AudibleMultiTone initial frame C = (some (-2), C') ∧
      Trace.move (.frame initial frame) T = some (some (-2), T') ∧ Stage rank 35 C' T' := by
  have hwait := h.first (by decide)
  obtain ⟨B, hB, hret⟩ := hwait.searching.step hrank (by decide) hs
  rw [if_pos rfl] at hret
  obtain ⟨C', hC, hread⟩ := hwait.start (g := initial) hrank hs
  obtain ⟨T', hT, hfollows, -⟩ := h.move (fun _ hret0 => by
    rw [hret] at hret0
    exact absurd (show (1 : ℤ) = 0 from hret0) (by decide)) hC
  refine ⟨C', T', hC, hT, hfollows, fun h => absurd h (by decide), fun _ _ => ⟨_, hread⟩, fun h => absurd h (by decide),
    fun _ => ?_⟩
  rcases Core.step_cases hC with ⟨-, ret, A, hA, hcase⟩ | ⟨hd, -⟩ | ⟨hd, -⟩
  · obtain ⟨rfl, rfl⟩ := Prod.mk.inj (hret.symm.trans hA)
    obtain ⟨-, rfl⟩ : some (-2) = some (-2) ∧ C' = C.begin .AudibleMultiTone 1 (beginMessage 0 B) := hcase
    exact (congrArg Prod.snd (congrFun (setRead_notes B 0 0 _) 34)).trans (hB.second 34 (by decide))
  · exact absurd hwait.decoding hd
  · exact absurd hwait.decoding hd

/-- The next frame of a sound that starts messages and makes tokens. -/
theorem Stage.step (hrank : Starts rank) (htokens : ∀ p < 3, Core.Tokens rank p) (hs : Sounds rank frame) (hk : k < 394)
    (h : Stage rank k C T) :
    ∃ r C' T', Core.step .AudibleMultiTone initial frame C = (r, C') ∧
      Trace.move (.frame initial frame) T = some (r, T') ∧ Stage rank (k + 1) C' T' := by
  by_cases h34 : k < 34
  · obtain ⟨C', T', hC, hT, hfollows, hwait, -, -⟩ := h.wait hrank hs (by omega) (h.first (by omega)) (Or.inl rfl)
    exact ⟨_, C', T', hC, hT, hfollows, fun _ => hwait, fun _ _ => by omega, fun _ => by omega, fun _ => by omega⟩
  · by_cases heq34 : k = 34
    · subst heq34
      obtain ⟨C', T', hC, hT, hstage⟩ := h.start hrank hs
      exact ⟨_, C', T', hC, hT, hstage⟩
    · by_cases h360 : k < 360
      · obtain ⟨A0, hread⟩ := h.message (by omega) h360
        have hd := hread.onTime.decoding
        have h0 : C.mDecoding ≠ 0 := by omega
        have hnote := congrArg Prod.snd (congrFun (message_notes (c := .AudibleMultiTone) rfl h0 initial frame 0) 34)
        by_cases h359 : k = 359
        · subst h359
          obtain ⟨C', hC, hwait⟩ := Core.Reading.finish initial frame hread
          obtain ⟨T', hT, hfollows, hsearched⟩ := h.move (fun hd => absurd hd h0) hC
          rw [hC] at hnote
          exact ⟨_, C', T', hC, hT, hfollows, fun _ => by omega, fun _ _ => by omega, fun _ => ⟨hwait, hsearched⟩,
            fun _ => hnote.trans (h.note (by decide))⟩
        · obtain ⟨r, C', hC, hread', -⟩ := hread.step (by omega) (g := initial) rfl hs fun _ =>
            htokens _ (Nat.mod_lt _ (by decide))
          obtain ⟨T', hT, hfollows, -⟩ := h.move (fun hd => absurd hd h0) hC
          rw [hC] at hnote
          refine ⟨_, C', T', hC, hT, hfollows, fun _ => by omega, fun _ _ => ⟨A0, ?_⟩, fun _ => by omega,
            fun _ => hnote.trans (h.note (by omega))⟩
          rwa [show k + 1 - 35 = k - 35 + 1 by omega]
      · obtain ⟨hwait, hsearched⟩ := h.second (by omega)
        obtain ⟨C', T', hC, hT, hfollows, hwait', hsearched', hnote⟩ := h.wait hrank hs (by omega) hwait (Or.inr rfl)
        refine ⟨_, C', T', hC, hT, hfollows, fun _ => by omega, fun _ _ => by omega, fun _ => ⟨?_, by omega⟩,
          fun _ => ?_⟩
        · rwa [show k + 1 - 360 = k - 360 + 1 by omega]
        · rw [hnote rfl]
          exact h.note (by omega)

/-- Both decoders listen to the sound. -/
theorem stage_run (hrank : Starts rank) (htokens : ∀ p < 3, Core.Tokens rank p) {frames : ℕ → ℕ → ℝ}
    (hs : ∀ k, Sounds rank (frames k)) : ∀ k ≤ 394, ∃ log C T, Run Trace.move allModes log T ∧
      Run (Core.move .AudibleMultiTone) Decoder.audible.core log C ∧
      log.map Prod.fst = (List.range k).map (fun j => .frame initial (frames j)) ∧ Stage rank k C T ∧
      (some (-3) ∈ log.map Prod.snd ↔ 360 ≤ k) := by
  intro k
  induction k with
  | zero =>
    intro _
    exact ⟨[], Decoder.audible.core, allModes, .nil, .nil, rfl, ⟨allModes_follows,
      fun _ => Decoder.audible_waiting rank, fun _ => by omega, fun _ => by omega, fun _ => by omega⟩, by simp⟩
  | succ k ih =>
    intro hk
    obtain ⟨log, C, T, hrun, hrunC, hlog, hstage, hend⟩ := ih (by omega)
    obtain ⟨r, C', T', hC, hT, hstage'⟩ := hstage.step hrank htokens (hs k) (by omega)
    have hmove : Core.move .AudibleMultiTone (.frame initial (frames k)) C = some (r, C') := congrArg some hC
    refine ⟨log ++ [(.frame initial (frames k), r)], C', T', .call hrun hT, .call hrunC hmove, ?_, hstage', ?_⟩
    · rw [List.map_append, hlog, List.range_succ, List.map_append]
      rfl
    · rw [List.map_append, List.mem_append, hend, List.map_singleton, List.mem_singleton, eq_comm (a := some (-3)),
        hstage.ends hC]
      omega

end Stage

/-- The chord once more, for as long as it takes to find its start tokens twice: with the second start the note of the
last frame of the first search is counted. -/
theorem leftover_counted :
    ∃ (log : List (Core.Move ℝ × Option ℤ)) (T : Trace ℝ), Run move allModes log T ∧
      log.map Prod.fst = (List.range 395).map (fun k =>
        .frame initial (FrameBuffer.window 2048 256 (fun _ => 0) (chord 267) k)) ∧ ¬ FromScratch allModes log := by
  have hsound := chord_sounds (d := 267) (by decide) (by decide) (by decide) (fun _ => 0)
  obtain ⟨log, C, T, hrun, -, hlog, hstage, -⟩ := stage_run chord_tokens.1 chord_tokens.2 hsound 394 le_rfl
  set frame := FrameBuffer.window 2048 256 (fun _ => 0) (chord 267) 394
  obtain ⟨hwait, hsearched⟩ := hstage.second (by decide)
  obtain ⟨B, hB, hret⟩ := hwait.searching.step chord_tokens.1 (by decide) (hsound 394)
  rw [if_pos rfl] at hret
  have hreports : T.Reports frame 0 := by
    refine ⟨hstage.follows.decoding.trans hwait.decoding, ?_⟩
    have hsearch := (hstage.follows.analysis.search frame fun hret0 => by
      rw [hret] at hret0
      exact absurd (show (1 : ℤ) = 0 from hret0) (by decide)).1
    rw [hret] at hsearch
    exact hsearch
  obtain ⟨T', hmove⟩ := exists_move hreports initial
  refine ⟨log ++ [(.frame initial frame, some (-2))], T', .call hrun hmove, ?_, fun h => ?_⟩
  · rw [show 395 = 394 + 1 from rfl, List.range_succ (n := 394), List.map_append, List.map_append, hlog,
      List.map_singleton, List.map_singleton]
  · have hkept : Kept _ T := run_kept (kept_new default default initial 44100 2048) hrun
    have hskips := (hkept.reports_iff hreports hmove).1
      (h log initial frame _ T T' 0 (List.prefix_refl _) hrun hmove hreports)
    have hsize : T.core.analysis.mSizeBlockCircularBuffer = 36 :=
      hstage.follows.analysis.size.trans hwait.searching.settings.size
    have hread : (T.core.analysis.lane 0).mReadPosInBlockCircularBuffer = 359 % 36 :=
      hstage.follows.analysis.read.trans hwait.searching.read
    have hnote : (notes (T.core.analysis.lane 0) 34).2 = 2 := by
      rw [hstage.follows.analysis.noted]
      exact hstage.note (by decide)
    have hpos : T.core.analysis.blockPos 0 35 = 34 := by
      rw [blockPos, hsize, hread]
    have hlag : lag 0 = 0 := rfl
    refine hskips 35 (by rw [hsize]; decide) ?_ ?_
    · unfold Leftover
      rw [hsize, hsearched, hlag]
      decide
    · rw [hsize, hpos]
      exact Or.inr ⟨by decide, Or.inr hnote⟩

end Trace

end Undertone
