import Undertone.Capacity
import Undertone.Lib.Run
import Mathlib.Data.List.DropRight

/-!
# Reading a transmission in pieces

The calls of an encoder's object in any order. The read index says how much has been handed out since the last encoding
or reset: the pieces read since then are the beginning of the encoded audio, each sample once and in order
(`streaming_exact`).
-/

namespace Undertone

namespace AudioEncoder

open BoundedArray

variable {F D : Type} [Doubles D] [Floats F D] [Synthesis F D]

inductive Call (F : Type)
  | EncodeDataToAudioBuffer (w : Surroundings F) (stringToEncode : List Char) (type : ℤ) (melodyString : List Char)
  | GetEncodedAudioBuffer
  | ResetEncodedAudioBuffer
  | SetAudioSignature (samples : List F)

/-- A call, with what it returns and the samples that it writes to the caller's buffer. -/
def call : Call F → AudioEncoder F → Option ((ℕ × List F) × AudioEncoder F)
  | .EncodeDataToAudioBuffer w stringToEncode type melodyString, e => do
    let (n, e) ← e.EncodeDataToAudioBuffer w stringToEncode type melodyString
    return ((n, []), e)
  | .GetEncodedAudioBuffer, e => do
    let (samples, e) ← e.GetEncodedAudioBuffer
    return ((samples.length, samples), e)
  | .ResetEncodedAudioBuffer, e => some ((0, []), e.ResetEncodedAudioBuffer)
  | .SetAudioSignature samples, e => some ((0, []), e.SetAudioSignature samples)

/-! ## What is read -/

/-- The call does not set the read index back. -/
def Call.keepsIndex : Call F → Bool
  | .EncodeDataToAudioBuffer _ _ _ _ | .ResetEncodedAudioBuffer => false
  | .GetEncodedAudioBuffer | .SetAudioSignature _ => true

def Call.isRead : Call F → Bool
  | .GetEncodedAudioBuffer => true
  | _ => false

/-- The reads since the last encoding or reset, with their answers. -/
def reads (log : List (Call F × ℕ × List F)) : List (Call F × ℕ × List F) :=
  (log.rtakeWhile fun entry => entry.1.keepsIndex).filter fun entry => entry.1.isRead

/-- The samples returned since the last encoding or reset, one after the other. -/
def delivered (log : List (Call F × ℕ × List F)) : List F := ((reads log).map fun entry => entry.2.2).flatten

/-- The encoded audio. -/
def encoded (e : AudioEncoder F) : List F := (List.range e.mNumSamplesEncodedString).map e.mAudioBufferEncodedString

omit [Doubles D] [Floats F D] [Synthesis F D] in
@[simp] theorem encoded_length (e : AudioEncoder F) : e.encoded.length = e.mNumSamplesEncodedString := by
  rw [encoded, List.length_map, List.length_range]

section Log

variable {log : List (Call F × ℕ × List F)}

omit [Doubles D] [Floats F D] [Synthesis F D] in
theorem reads_read (log : List (Call F × ℕ × List F)) (r : ℕ × List F) :
    reads (log ++ [(.GetEncodedAudioBuffer, r)]) = reads log ++ [(.GetEncodedAudioBuffer, r)] := by
  unfold reads
  rw [List.rtakeWhile_concat_pos _ _ _ rfl, List.filter_append]
  rfl

omit [Doubles D] [Floats F D] [Synthesis F D] in
theorem reads_signature (log : List (Call F × ℕ × List F)) (samples : List F) (r : ℕ × List F) :
    reads (log ++ [(.SetAudioSignature samples, r)]) = reads log := by
  unfold reads
  rw [List.rtakeWhile_concat_pos _ _ _ rfl, List.filter_append]
  exact List.append_nil _

omit [Doubles D] [Floats F D] [Synthesis F D] in
theorem reads_rewind (log : List (Call F × ℕ × List F)) {c : Call F} (hc : c.keepsIndex = false) (r : ℕ × List F) :
    reads (log ++ [(c, r)]) = [] := by
  unfold reads
  rw [List.rtakeWhile_concat_neg _ _ _ (by rw [hc]; exact Bool.false_ne_true)]
  rfl

omit [Doubles D] [Floats F D] [Synthesis F D] in
theorem delivered_read (log : List (Call F × ℕ × List F)) (r : ℕ × List F) :
    delivered (log ++ [(.GetEncodedAudioBuffer, r)]) = delivered log ++ r.2 := by
  rw [delivered, reads_read, List.map_append, List.flatten_append, List.map_singleton, List.flatten_singleton]
  rfl

end Log

/-! ## One call -/

section Calls

variable {e e' : AudioEncoder F} {B : ℕ} {log : List (Call F × ℕ × List F)}

omit [Synthesis F D] in
/-- The loop copies what is left, up to its number of rounds. -/
theorem readSamples_eq (hfit : e.mNumSamplesEncodedString ≤ e.mNumMaxSamplesEncodedString) :
    ∀ n index, readSamples e n index = some ((e.encoded.drop index).take n)
  | 0, index => by rw [readSamples, List.take_zero]
  | n + 1, index => by
    rw [readSamples]
    by_cases hend : index ≥ e.mNumSamplesEncodedString
    · rw [if_pos hend, List.drop_eq_nil_of_le (by rw [encoded_length]; exact hend), List.take_nil]
    · have hlt : index < e.encoded.length := by
        rw [encoded_length]
        omega
      rw [if_neg hend, get_cast (by omega), readSamples_eq hfit n (index + 1), List.drop_eq_getElem_cons hlt,
        List.take_succ_cons]
      simp only [encoded, List.getElem_map, List.getElem_range]
      rfl

omit [Synthesis F D] in
theorem getEncodedAudioBuffer_eq (hfit : e.mNumSamplesEncodedString ≤ e.mNumMaxSamplesEncodedString) :
    e.GetEncodedAudioBuffer = some ((e.encoded.drop e.mReadIndexEncodedAudioBuffer).take e.mBufferSize,
      { e with mReadIndexEncodedAudioBuffer := e.mReadIndexEncodedAudioBuffer +
          ((e.encoded.drop e.mReadIndexEncodedAudioBuffer).take e.mBufferSize).length }) := by
  rw [GetEncodedAudioBuffer, readSamples_eq hfit]
  rfl

/-- The read index and the samples returned, after the calls of `log`. -/
structure Streams (B : ℕ) (log : List (Call F × ℕ × List F)) (e : AudioEncoder F) : Prop where
  bufferSize : e.mBufferSize = B
  fits : e.mNumSamplesEncodedString ≤ e.mNumMaxSamplesEncodedString
  index : e.mReadIndexEncodedAudioBuffer = min e.mNumSamplesEncodedString ((reads log).length * B)
  delivered : delivered log = e.encoded.take ((reads log).length * B)

omit [Synthesis F D] in
/-- A read returns the next samples. -/
theorem Streams.read (h : Streams B log e) : ∃ samples e', e.GetEncodedAudioBuffer = some (samples, e') ∧
    samples.length = min B (e.mNumSamplesEncodedString - (reads log).length * B) ∧
      e'.mNumSamplesEncodedString = e.mNumSamplesEncodedString ∧
      ∀ n, Streams B (log ++ [(.GetEncodedAudioBuffer, n, samples)]) e' := by
  have hdrop : e.encoded.drop e.mReadIndexEncodedAudioBuffer = e.encoded.drop ((reads log).length * B) := by
    rw [h.index]
    by_cases hend : e.mNumSamplesEncodedString ≤ (reads log).length * B
    · rw [min_eq_left hend, List.drop_eq_nil_of_le (encoded_length e).le,
        List.drop_eq_nil_of_le ((encoded_length e).le.trans hend)]
    · rw [min_eq_right (le_of_not_ge hend)]
  have hlength : ((e.encoded.drop ((reads log).length * B)).take B).length =
      min B (e.mNumSamplesEncodedString - (reads log).length * B) := by
    rw [List.length_take, List.length_drop, encoded_length]
  have heq := getEncodedAudioBuffer_eq h.fits
  rw [hdrop, h.bufferSize] at heq
  refine ⟨_, _, heq, hlength, rfl, fun n => ⟨rfl, h.fits, ?_, ?_⟩⟩
  · simp only
    rw [h.index, hlength, reads_read, List.length_append, List.length_singleton, Nat.succ_mul]
    omega
  · rw [delivered_read, reads_read, List.length_append, List.length_singleton, Nat.succ_mul, h.delivered, List.take_add]
    rfl

theorem Streams.call {c : Call F} {r : ℕ × List F} (h : Streams B log e) (hcall : call c e = some (r, e')) :
    Streams B (log ++ [(c, r)]) e' := by
  cases c with
  | EncodeDataToAudioBuffer w stringToEncode type melodyString =>
    obtain ⟨⟨n, e1⟩, hencode, hdone⟩ := Option.bind_eq_some_iff.1 hcall
    obtain ⟨rfl, rfl⟩ := Prod.mk.inj (Option.some.inj hdone)
    obtain ⟨hfit, hindex, hsize⟩ := encode_fits hencode
    have hreads := reads_rewind log (c := .EncodeDataToAudioBuffer w stringToEncode type melodyString) rfl (n, [])
    refine ⟨hsize.trans h.bufferSize, hfit, ?_, ?_⟩
    · rw [hindex, hreads, List.length_nil, Nat.zero_mul, Nat.min_zero]
    · rw [AudioEncoder.delivered, hreads, List.length_nil, Nat.zero_mul, List.take_zero]
      rfl
  | GetEncodedAudioBuffer =>
    obtain ⟨⟨samples, e1⟩, hread, hdone⟩ := Option.bind_eq_some_iff.1 hcall
    obtain ⟨rfl, rfl⟩ := Prod.mk.inj (Option.some.inj hdone)
    obtain ⟨samples', e2, hread', -, -, hnext⟩ := h.read
    obtain ⟨rfl, rfl⟩ := Prod.mk.inj (Option.some.inj (hread.symm.trans hread'))
    exact hnext samples.length
  | ResetEncodedAudioBuffer =>
    obtain ⟨rfl, rfl⟩ := Prod.mk.inj (Option.some.inj hcall)
    have hreads := reads_rewind log (c := .ResetEncodedAudioBuffer) rfl (0, [])
    refine ⟨h.bufferSize, h.fits, ?_, ?_⟩
    · rw [hreads, List.length_nil, Nat.zero_mul, Nat.min_zero]
      rfl
    · rw [AudioEncoder.delivered, hreads, List.length_nil, Nat.zero_mul, List.take_zero]
      rfl
  | SetAudioSignature samples =>
    obtain ⟨rfl, rfl⟩ := Prod.mk.inj (Option.some.inj hcall)
    have hreads := reads_signature log samples (0, [])
    refine ⟨h.bufferSize, h.fits, ?_, ?_⟩
    · rw [hreads]
      exact h.index
    · rw [AudioEncoder.delivered, hreads]
      exact h.delivered

/-- Nothing is left to read. -/
theorem exhausted_call {c : Call F} {r : ℕ × List F} (hc : c.keepsIndex = true)
    (hend : e.mNumSamplesEncodedString ≤ e.mReadIndexEncodedAudioBuffer)
    (hcall : AudioEncoder.call c e = some (r, e')) :
    e'.mNumSamplesEncodedString ≤ e'.mReadIndexEncodedAudioBuffer := by
  cases c with
  | EncodeDataToAudioBuffer w stringToEncode type melodyString => exact absurd hc Bool.false_ne_true
  | GetEncodedAudioBuffer =>
    obtain ⟨⟨samples, e1⟩, hread, hdone⟩ := Option.bind_eq_some_iff.1 hcall
    obtain ⟨rfl, rfl⟩ := Prod.mk.inj (Option.some.inj hdone)
    obtain ⟨samples', -, hdone'⟩ := Option.bind_eq_some_iff.1 hread
    obtain ⟨rfl, rfl⟩ := Prod.mk.inj (Option.some.inj hdone')
    exact hend.trans (Nat.le_add_right _ _)
  | ResetEncodedAudioBuffer => exact absurd hc Bool.false_ne_true
  | SetAudioSignature samples =>
    obtain ⟨rfl, rfl⟩ := Prod.mk.inj (Option.some.inj hcall)
    exact hend

end Calls

/-! ## Runs -/

section Runs

variable {e e' : AudioEncoder F} {B : ℕ} {log : List (Call F × ℕ × List F)}

theorem exhausted_run {l : List (Call F × ℕ × List F)} {e0 : AudioEncoder F}
    (hend : ∀ e1, Run call e0 l e1 → e1.mNumSamplesEncodedString ≤ e1.mReadIndexEncodedAudioBuffer) :
    ∀ m : List (Call F × ℕ × List F), (∀ entry ∈ m, entry.1.keepsIndex = true) → ∀ e1, Run call e0 (l ++ m) e1 →
      e1.mNumSamplesEncodedString ≤ e1.mReadIndexEncodedAudioBuffer := by
  intro m
  induction m using List.reverseRecOn with
  | nil =>
    intro _ e1 hrun
    rw [List.append_nil] at hrun
    exact hend e1 hrun
  | append_singleton m entry ih =>
    intro hm e1 hrun
    rw [← List.append_assoc] at hrun
    obtain ⟨e2, hrun', hcall⟩ := hrun.snoc_inv
    have hkeep := hm entry (List.mem_append_right m (List.mem_singleton_self entry))
    exact exhausted_call hkeep (ih (fun x hx => hm x (List.mem_append_left _ hx)) e2 hrun') hcall

theorem run_streams (memReedSolomon : ReedSolomon) (memAudio : ℕ → F) (c : EncoderClass) (samplingRate : F)
    (buffsize windowSize : ℕ) (h : Run call (new memReedSolomon memAudio c samplingRate buffsize windowSize) log e) :
    Streams buffsize log e := by
  refine h.rule (Streams buffsize) ⟨rfl, Nat.zero_le _, (Nat.zero_min _).symm, ?_⟩ fun _ _ _ _ _ hs hcall =>
    hs.call hcall
  have hempty : (new memReedSolomon memAudio c samplingRate buffsize windowSize).encoded = [] := rfl
  rw [hempty, List.take_nil]
  rfl

/-- How much a read returns. -/
theorem Streams.answer (h : Streams B log e) {n : ℕ} {samples : List F}
    (hcall : AudioEncoder.call .GetEncodedAudioBuffer e = some ((n, samples), e')) :
    n = samples.length ∧ n = min B (e.mNumSamplesEncodedString - (reads log).length * B) ∧ e'.encoded = e.encoded := by
  obtain ⟨⟨samples', e1⟩, hread, hdone⟩ := Option.bind_eq_some_iff.1 hcall
  obtain ⟨hans, rfl⟩ := Prod.mk.inj (Option.some.inj hdone)
  obtain ⟨rfl, rfl⟩ := Prod.mk.inj hans
  obtain ⟨samples'', e2, hread', hlength, -⟩ := h.read
  obtain ⟨rfl, rfl⟩ := Prod.mk.inj (Option.some.inj (hread.symm.trans hread'))
  obtain ⟨s, -, hdone'⟩ := Option.bind_eq_some_iff.1 hread
  obtain ⟨rfl, rfl⟩ := Prod.mk.inj (Option.some.inj hdone')
  exact ⟨rfl, hlength, rfl⟩

/-- Over every run of the calls of an encoder: what the reads since the last encoding or reset return, put together, is
the beginning of the encoded audio, as much of it as they asked for; a read that returns less than a whole buffer has
brought the last sample, and no later one returns anything until the next encoding or reset. -/
theorem streaming_exact (memReedSolomon : ReedSolomon) (memAudio : ℕ → F) (c : EncoderClass) (samplingRate : F)
    (buffsize windowSize : ℕ) (h : Run call (new memReedSolomon memAudio c samplingRate buffsize windowSize) log e) :
    delivered log = e.encoded.take ((reads log).length * buffsize) ∧
    (∀ l n samples, log = l ++ [(.GetEncodedAudioBuffer, n, samples)] →
      n = samples.length ∧ n ≤ buffsize ∧ (n < buffsize → delivered log = e.encoded)) ∧
    (∀ l n samples m n' samples', log = l ++ [(.GetEncodedAudioBuffer, n, samples)] ++ m ++
        [(.GetEncodedAudioBuffer, n', samples')] → (∀ entry ∈ m, entry.1.keepsIndex = true) → n < buffsize → n' = 0) ∧
    (call .GetEncodedAudioBuffer e).isSome := by
  have hstreams : ∀ {l e1}, Run call (new memReedSolomon memAudio c samplingRate buffsize windowSize) l e1 →
      Streams buffsize l e1 := fun hrun => run_streams memReedSolomon memAudio c samplingRate buffsize windowSize hrun
  refine ⟨(hstreams h).delivered, ?_, ?_, ?_⟩
  · rintro l n samples rfl
    obtain ⟨e0, hrun, hcall⟩ := h.snoc_inv
    obtain ⟨hn, hmin, hsame⟩ := (hstreams hrun).answer hcall
    refine ⟨hn, by omega, fun hlt => ?_⟩
    rw [(hstreams h).delivered, hsame, reads_read, List.length_append, List.length_singleton, Nat.succ_mul]
    refine List.take_of_length_le ?_
    rw [encoded_length]
    omega
  · rintro l n samples m n' samples' rfl hm hlt
    obtain ⟨e2, hrun, hcall⟩ := h.snoc_inv
    have hend : e2.mNumSamplesEncodedString ≤ e2.mReadIndexEncodedAudioBuffer := by
      refine exhausted_run (fun e1 hrun1 => ?_) m hm e2 hrun
      obtain ⟨e0, hrun0, hcall0⟩ := hrun1.snoc_inv
      obtain ⟨-, hmin, hsame⟩ := (hstreams hrun0).answer hcall0
      have hnum : e1.mNumSamplesEncodedString = e0.mNumSamplesEncodedString := by
        rw [← encoded_length, hsame, encoded_length]
      rw [(hstreams hrun1).index, reads_read, List.length_append, List.length_singleton, Nat.succ_mul, hnum]
      omega
    have hindex := (hstreams hrun).index
    obtain ⟨-, hmin, -⟩ := (hstreams hrun).answer hcall
    omega
  · obtain ⟨samples, e1, hread, -⟩ := (hstreams h).read
    exact Option.isSome_iff_exists.2 ⟨_, congrArg (Option.bind · _) hread⟩

end Runs

/-- The same for a word that is encoded, read from, reset and read from. -/
theorem streaming_exact_word : ∃ log e, Run call (audible 1024) log e ∧
    log.map Prod.fst = [.EncodeDataToAudioBuffer untouched ['h', 'e', 'l', 'l', 'o', '0', '0', '0', '0'] 0 [],
      .GetEncodedAudioBuffer, .ResetEncodedAudioBuffer, .GetEncodedAudioBuffer] ∧
    delivered log = e.encoded.take 1024 := by
  have hn := samplesPerDigit_44100 (e := audible 1024) rfl
  have hmax := maxSamples_44100 (e := audible 1024) rfl
  obtain ⟨⟨n, e1⟩, hencode⟩ := Option.isSome_iff_exists.1 ((encode_isSome_iff (e := audible 1024) untouched (by omega)
    (by omega) ['h', 'e', 'l', 'l', 'o', '0', '0', '0', '0'] 0 []).2
    ⟨⟨by decide, by decide, word_inAlphabet⟩, fun h => absurd h (by decide)⟩)
  have hcall1 : call (.EncodeDataToAudioBuffer untouched ['h', 'e', 'l', 'l', 'o', '0', '0', '0', '0'] 0 [])
      (audible 1024) = some ((n, []), e1) := congrArg (Option.bind · _) hencode
  have hrun1 := Run.call .nil hcall1
  have hstreams := fun {l e'} (h : Run call (audible 1024) l e') =>
    run_streams default default .AudibleMultiTone (44100 : ℝ) 1024 2048 h
  obtain ⟨samples2, e2, hread2, -⟩ := (hstreams hrun1).read
  have hcall2 : call .GetEncodedAudioBuffer e1 = some ((samples2.length, samples2), e2) :=
    congrArg (Option.bind · _) hread2
  have hrun2 := Run.call hrun1 hcall2
  have hcall3 : call .ResetEncodedAudioBuffer e2 = some ((0, []), e2.ResetEncodedAudioBuffer) := rfl
  have hrun3 := Run.call hrun2 hcall3
  obtain ⟨samples4, e4, hread4, -⟩ := (hstreams hrun3).read
  have hcall4 : call .GetEncodedAudioBuffer e2.ResetEncodedAudioBuffer = some ((samples4.length, samples4), e4) :=
    congrArg (Option.bind · _) hread4
  have hrun4 := Run.call hrun3 hcall4
  refine ⟨_, e4, hrun4, rfl, ?_⟩
  have hdelivered := (streaming_exact default default .AudibleMultiTone (44100 : ℝ) 1024 2048 hrun4).1
  rw [reads_read, reads_rewind _ (c := .ResetEncodedAudioBuffer) rfl, List.length_append, List.length_singleton,
    List.length_nil, Nat.zero_add, Nat.one_mul] at hdelivered
  exact hdelivered

end AudioEncoder

end Undertone
