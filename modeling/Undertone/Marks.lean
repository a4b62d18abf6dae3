import Undertone.Amplitude
import Undertone.Lib.While
import Undertone.NumberBase
import Undertone.Reuse

/-!
# The audio file

`generateAudio` to its end: the file is written in buffers, silence until a mark is due and then the audio of the mark,
which is the key with the time of the mark in base 32. Times are exact, and so are the parameters that the source fixes.
For all parameters that pass the checks and every key the file ends, with every mark that is due in it, whole and at its
place, and silence everywhere else (`marks_written`). The outcome is the one of the server's account of the program,
which leaves out the audio (`generateAudio_outcome`).
-/

namespace Undertone

open Server ConditionLoop COxyCore

/-- The parameters of the audio, constants in the source. -/
structure AudioParameters where
  duration : ℚ
  interval : ℚ
  startTime : ℚ
  volumeoxys : ℚ

/-- Their values. -/
def audioParameters : AudioParameters := ⟨duration, interval, startTime, -3⟩

namespace AudioFile

def bufferSize : ℕ := 128
def sampleRate : ℚ := 44100

/-- `(int)x` -/
def int (x : ℚ) : ℤ := x.num.tdiv x.den

/-- `OXY_MODE_NONAUDIBLE` -/
def mode : ℤ := 3

/-- The type of the encodings: no sounds are added. -/
def synthMode : ℤ := 0

section Program

variable {F D : Type} [Doubles D] [Floats F D] [CFFTOoura F] [Synthesis F D]

/-- What the loop that writes the file changes. -/
structure Writing (F : Type) where
  currentTimeInSeconds : ℚ
  nextMarkTime : ℚ
  /-- What the last read returned. -/
  samplesRetrieved : ℤ
  /-- The samples written to the file. -/
  file : List F
  mOxyCore : COxyCore F
  shared : Shared F

def defUndertoneLevel (p : AudioParameters) : F := Floats.pow (Floats.lit 10) (Floats.lit p.volumeoxys / Floats.lit 20)

/-- `currentTimestamp`, an array of 5 bytes: the seconds in base 32, with zeros in front up to four digits. -/
def currentTimestamp (timestampInSeconds : ℤ) : Option (List UInt8) := do
  let timestamp ← fromDecToBase timestampInSeconds 32
  let currentTimestamp := List.replicate (4 - timestamp.length) (Char.toUInt8 '0') ++ timestamp
  if currentTimestamp.length < 5 then some currentTimestamp else none

/-- `stringToDecode`, an array of 10 bytes. -/
def stringToDecode (keyStr currentTimestamp : List UInt8) : Option (List UInt8) :=
  if (keyStr ++ currentTimestamp).length < 10 then some (keyStr ++ currentTimestamp) else none

/-- A buffer of the encoded audio. -/
def writeBuffer (p : AudioParameters) (st : Writing F) : Option (Writing F) := do
  let (r, mOxyCore, shared) ← call .GetEncodedAudioBuffer st.mOxyCore st.shared
  match r with
  | .samples samplesRetrieved audioBuffer => return { st with
      currentTimeInSeconds := st.currentTimeInSeconds + samplesRetrieved / sampleRate
      samplesRetrieved := samplesRetrieved
      file := st.file ++ audioBuffer.map (defUndertoneLevel p * ·)
      mOxyCore := mOxyCore
      shared := shared }
  | _ => none

/-- The mark that is due. -/
def writeMark (fuel : ℕ) (p : AudioParameters) (keyStr : List UInt8) (st : Writing F) : Option (Writing F) := do
  let timestampInSeconds := int (st.nextMarkTime + 0.5)
  let timestamp ← currentTimestamp timestampInSeconds
  let string ← stringToDecode keyStr timestamp
  let (_, mOxyCore, shared) ← call (.EncodeDataToAudioBuffer (string.map Char.ofUInt8) synthMode [] fun _ => 0)
    st.mOxyCore st.shared
  let st ← doWhileM (fun st => 0 < st.samplesRetrieved) (writeBuffer p) fuel
    { st with mOxyCore := mOxyCore, shared := shared }
  let (_, mOxyCore, shared) ← call .ResetEncodedAudioBuffer st.mOxyCore st.shared
  return { st with
    nextMarkTime := st.nextMarkTime + p.interval
    mOxyCore := mOxyCore
    shared := shared }

/-- Silence between marks. -/
def writeSilence (st : Writing F) : Writing F :=
  { st with
    currentTimeInSeconds := st.currentTimeInSeconds + bufferSize / sampleRate
    file := st.file ++ List.replicate bufferSize (Floats.lit 0) }

def writeNext (fuel : ℕ) (p : AudioParameters) (keyStr : List UInt8) (st : Writing F) : Option (Writing F) :=
  if st.currentTimeInSeconds ≥ st.nextMarkTime - durToken * 20 then writeMark fuel p keyStr st
  else some (writeSilence st)

/-- `generateAudio(keyStr)` with less than `fuel` rounds in each loop: the value returned and the name of the file that
was written with its samples, and the globals. `new` leaves `memCore` and `mem` in the memory of the objects; creating
the file succeeds. -/
def generateAudio (fuel : ℕ) (p : AudioParameters) (memCore : COxyCore F) (mem : Memory F) (w : Shared F)
    (keyStr : List UInt8) : Option ((ℤ × Option (List UInt8 × List F)) × Shared F) :=
  let outputFnStr := keyStr ++ wav
  if keyStr.length ≠ 5 then some ((-1, none), w)
  else if ∃ c ∈ keyStr, charToVal c = -1 then some ((-1, none), w)
  else if p.interval < min_interval then some ((-1, none), w)
  else if p.duration < p.startTime + 0.1 then some ((-1, none), w)
  else if p.duration > 86400 then some ((-1, none), w)
  else if p.startTime > p.duration ∨ p.startTime < min_startTime then some ((-1, none), w)
  else do
    let startTime := max p.startTime min_startTime
    let mOxyCore := Create memCore
    let (_, mOxyCore, w) ← call (.SetSynthVolume (Floats.lit 0)) mOxyCore w
    let (_, mOxyCore, w) ← call (.Configure mem mode (Floats.lit sampleRate) bufferSize) mOxyCore w
    let st ← whileM (fun st => st.currentTimeInSeconds < p.duration) (writeNext fuel p keyStr) fuel
      { currentTimeInSeconds := 0
        nextMarkTime := startTime
        samplesRetrieved := 0
        file := []
        mOxyCore := mOxyCore
        shared := w }
    return ((0, some (outputFnStr, st.file)), st.shared)

end Program

/-! ## Timestamps -/

section Timestamps

/-- The digits of a number that is not zero. -/
theorem fromDecToBase_digits {rad num : ℕ} (hrad : 2 ≤ rad) (hrad' : rad ≤ 62) (hpos : 0 < num) (hnum : num < 2 ^ 31) :
    fromDecToBase num rad = some ((Nat.digits rad num).reverse.map fun d => baseDigits.getD d 0) := by
  unfold fromDecToBase
  rw [if_neg (by omega), if_neg (by omega), if_pos (by omega), pushDigits_eq hrad 65 num [] (by omega), List.append_nil]

/-- The digits below 32 are the symbols of a key. -/
theorem baseDigits_mem {d : ℕ} (hd : d < 32) : baseDigits.getD d 0 ∈ convArray := by
  have hall : ∀ d < 32, baseDigits.getD d 0 ∈ convArray := by decide
  exact hall d hd

/-- A timestamp below `32^4` fits its array, is made of the symbols of a key and reads back as the number. -/
theorem currentTimestamp_eq {n : ℕ} (hn : n < 32 ^ 4) : ∃ stamp, currentTimestamp n = some stamp ∧ stamp.length = 4 ∧
    (∀ c ∈ stamp, c ∈ convArray) ∧ fromBaseToDec stamp 4 32 = BitVec.ofInt 32 n := by
  obtain ⟨number, hnumber, hlen, hmem, hvalue⟩ : ∃ number, fromDecToBase n 32 = some number ∧ number.length ≤ 4 ∧
      (∀ c ∈ number, c ∈ convArray) ∧ valueOf 32 number = n := by
    rcases Nat.eq_zero_or_pos n with rfl | hpos
    · exact ⟨[Char.toUInt8 '0'], by decide, by decide, List.forall_mem_singleton.2 (by decide), by decide⟩
    · have hdigits : ∀ d ∈ Nat.digits 32 n, d < 32 := fun d hd => Nat.digits_lt_base (by decide) hd
      refine ⟨_, fromDecToBase_digits (show 2 ≤ 32 by decide) (by decide) hpos (by omega), ?_, ?_, ?_⟩
      · rw [List.length_map, List.length_reverse]
        exact (Nat.digits_length_le_iff (by decide) n).2 hn
      · intro c hc
        obtain ⟨d, hd, rfl⟩ := List.mem_map.1 hc
        exact baseDigits_mem (hdigits d (List.mem_reverse.1 hd))
      · have hbounds := value_bounds (show 0 < 32 by decide) (Nat.digits 32 n) fun d hd =>
          (hdigits d hd).trans (by decide)
        have heq := hbounds.2.2.2 hdigits
        rwa [Nat.ofDigits_digits] at heq
  have hfull : (List.replicate (4 - number.length) (Char.toUInt8 '0') ++ number).length = 4 := by
    rw [List.length_append, List.length_replicate]
    omega
  refine ⟨List.replicate (4 - number.length) (Char.toUInt8 '0') ++ number, ?_, hfull, ?_, ?_⟩
  · unfold currentTimestamp
    rw [hnumber]
    exact if_pos (by rw [hfull]; decide)
  · intro c hc
    rcases List.mem_append.1 hc with hzero | hnum
    · rw [List.eq_of_mem_replicate hzero]
      decide
    · exact hmem c hnum
  · have hread := fromBaseToDec_eq (List.replicate (4 - number.length) (Char.toUInt8 '0') ++ number) 32
    rw [hfull, valueOf_zeros, hvalue] at hread
    exact hread

/-- The symbols of a key are characters of the alphabet. -/
theorem inAlphabet_of_mem {c : UInt8} (hc : c ∈ convArray) : Globals.InAlphabet (Char.ofUInt8 c) := by
  have hall : convArray.all (fun c => decide (Globals.InAlphabet (Char.ofUInt8 c))) = true := by decide
  exact of_decide_eq_true (List.all_eq_true.1 hall c hc)

end Timestamps

/-! ## One encoding -/

section Encoding

open AudioEncoder hiding Call call int
open Encoder Globals

/-- A string without sounds and signature: its length and its amplitude. -/
theorem encode_plain {e : AudioEncoder ℝ} (hempty : e.mAudioSignature = [])
    (hword : 31 * e.samplesPerDigit ≤ e.mNumMaxSamplesEncodedString) {stringToEncode : List Char}
    (h9 : 9 ≤ stringToEncode.length) (h20 : stringToEncode.length ≤ 20) (hc : ∀ c ∈ stringToEncode, InAlphabet c)
    (w : Surroundings ℝ) : ∃ n e', EncodeDataToAudioBuffer w stringToEncode 0 [] e = some (n, e') ∧
      n = (stringToEncode.length + 11) * e.samplesPerDigit ∧ e'.mNumSamplesEncodedString = n ∧
        ∀ x ∈ e'.encoded, |x| ≤ 0.7 := by
  have htransmit := transmit_eq (e := e) h9 h20 hc
  have hlen : (e.mReedSolomon.send (userDigits stringToEncode ++ [checkDigit (userDigits stringToEncode)])).1.length =
      stringToEncode.length + 11 := by
    refine (ReedSolomon.getCode_length _).trans ?_
    show (userDigits stringToEncode ++ [checkDigit (userDigits stringToEncode)]).length + 8 = _
    rw [List.length_append, userDigits_length]
    rfl
  generalize e.mReedSolomon.send (userDigits stringToEncode ++ [checkDigit (userDigits stringToEncode)]) = sent
    at hlen htransmit
  obtain ⟨digits, codec⟩ := sent
  simp only at hlen
  have hfit : digits.length * e.samplesPerDigit ≤ e.mNumMaxSamplesEncodedString :=
    (Nat.mul_le_mul_right _ (by omega)).trans hword
  obtain ⟨st, hst, hnum⟩ := writeDigits_fits w.globals hfit
    (fun i => if i < e.mNumMaxSamplesEncodedString then Floats.lit 0 else e.mAudioBufferEncodedString i)
  have hwithin := writeDigits_within (clear_within e) hst
  have hsounds : addSounds w 0 [] digits e st = some st := rfl
  refine ⟨st.numSamples, { e with
    mReedSolomon := codec
    mAudioBufferEncodedString := st.audio
    mNumSamplesEncodedString := st.numSamples
    mReadIndexEncodedAudioBuffer := 0 }, ?_, hlen ▸ hnum, rfl, ?_⟩
  · unfold EncodeDataToAudioBuffer
    simp only [Option.bind_eq_bind]
    rw [htransmit, Option.bind_some, hst, Option.bind_some, hsounds, Option.bind_some, addSignature_empty hempty]
    rfl
  · intro x hx
    obtain ⟨k, hk, rfl⟩ := List.mem_map.1 hx
    exact hwithin k ((List.mem_range.1 hk).trans_le (hnum.le.trans hfit))

end Encoding

/-! ## The places of the marks -/

section Places

variable {p : AudioParameters} {k n : ℕ}

/-- The parameters that pass the checks. -/
structure Accepted (p : AudioParameters) : Prop where
  interval : min_interval ≤ p.interval
  duration : p.startTime + 0.1 ≤ p.duration
  day : p.duration ≤ 86400
  begins : min_startTime ≤ p.startTime
  ends : p.startTime ≤ p.duration

def markTime (p : AudioParameters) (k : ℕ) : ℚ := p.startTime + k * p.interval

/-- The time in the mark. -/
def markSecond (p : AudioParameters) (k : ℕ) : ℕ := ⌊markTime p k + 0.5⌋₊

/-- A mark ends at its time: it starts with the first buffer that is not too early for that. -/
def markStart (p : AudioParameters) (k : ℕ) : ℕ :=
  bufferSize * ⌈(markTime p k - durToken * 20) * sampleRate / bufferSize⌉₊

/-- Twenty symbols. -/
def markLength : ℕ := 92160

/-- The marks that start before the end. -/
def Due (p : AudioParameters) (k : ℕ) : Prop := markStart p k < p.duration * sampleRate

theorem writeSilence_place (hn : bufferSize ∣ n) (hearly : (n : ℚ) / sampleRate < markTime p k - durToken * 20) :
    n + bufferSize ≤ markStart p k := by
  obtain ⟨b, rfl⟩ := hn
  have hb : (b : ℚ) < (markTime p k - durToken * 20) * sampleRate / bufferSize := by
    rw [sampleRate, bufferSize] at *
    push_cast at hearly ⊢
    linarith
  have hceil := Nat.lt_ceil.2 hb
  unfold markStart
  rw [← Nat.mul_succ]
  exact Nat.mul_le_mul_left _ hceil

theorem writeMark_place (hn : bufferSize ∣ n) (hlate : markTime p k - durToken * 20 ≤ (n : ℚ) / sampleRate) :
    markStart p k ≤ n := by
  obtain ⟨b, rfl⟩ := hn
  have hb : (markTime p k - durToken * 20) * sampleRate / bufferSize ≤ (b : ℚ) := by
    rw [sampleRate, bufferSize] at *
    push_cast at hlate ⊢
    linarith
  exact Nat.mul_le_mul_left _ (Nat.ceil_le.2 hb)

variable (hp : Accepted p)

include hp

theorem markTime_ge (k : ℕ) : min_startTime ≤ markTime p k := by
  have hbegins := hp.begins
  have hinterval : 0 ≤ p.interval := le_trans (by rw [min_interval, durToken]; norm_num) hp.interval
  have hk : 0 ≤ (k : ℚ) * p.interval := mul_nonneg (Nat.cast_nonneg k) hinterval
  unfold markTime
  linarith

/-- A mark is over before the next one starts. -/
theorem markStart_succ (k : ℕ) : markStart p k + markLength ≤ markStart p (k + 1) := by
  have hinterval := hp.interval
  have hbegins := markTime_ge hp k
  have hnext : markTime p (k + 1) = markTime p k + p.interval := by
    unfold markTime
    push_cast
    ring
  have hpos : 0 ≤ (markTime p k - durToken * 20) * sampleRate / bufferSize := by
    rw [min_startTime, durToken] at hbegins
    rw [sampleRate, bufferSize, durToken]
    push_cast
    linarith
  have hstep : (markTime p k - durToken * 20) * sampleRate / bufferSize + (720 : ℕ) ≤
      (markTime p (k + 1) - durToken * 20) * sampleRate / bufferSize := by
    rw [min_interval, durToken] at hinterval
    rw [hnext, sampleRate, bufferSize, durToken]
    push_cast
    linarith
  have hceil := Nat.ceil_mono hstep
  rw [Nat.ceil_add_natCast hpos] at hceil
  calc markStart p k + markLength
      = bufferSize * (⌈(markTime p k - durToken * 20) * sampleRate / bufferSize⌉₊ + 720) := by
        rw [Nat.mul_add]
        rfl
    _ ≤ markStart p (k + 1) := Nat.mul_le_mul_left _ hceil

theorem markStart_mono : Monotone (markStart p) :=
  monotone_nat_of_le_succ fun k => (Nat.le_add_right _ _).trans (markStart_succ hp k)

/-- The second of a mark that is due has four digits in base 32. -/
theorem markSecond_lt (hk : Due p k) : markSecond p k < 32 ^ 4 := by
  have hday := hp.day
  have hstart : (markTime p k - durToken * 20) * sampleRate / bufferSize ≤
      (⌈(markTime p k - durToken * 20) * sampleRate / bufferSize⌉₊ : ℚ) := Nat.le_ceil _
  unfold Due markStart at hk
  unfold markSecond
  have hbegins := markTime_ge hp k
  rw [min_startTime, durToken] at hbegins
  rw [Nat.floor_lt (by linarith)]
  generalize ⌈(markTime p k - durToken * 20) * sampleRate / bufferSize⌉₊ = c at hk hstart
  rw [sampleRate, bufferSize, durToken] at hstart
  rw [sampleRate, bufferSize] at hk
  push_cast at hk hstart ⊢
  linarith

/-- Rounded by `(int)`. -/
theorem int_markTime (k : ℕ) : int (markTime p k + 0.5) = markSecond p k := by
  have hbegins := markTime_ge hp k
  have hpos : 0 ≤ markTime p k + 0.5 := by
    rw [min_startTime, durToken] at hbegins
    linarith
  unfold int markSecond
  rw [Int.tdiv_eq_ediv_of_nonneg (Rat.num_nonneg.2 hpos), ← Rat.floor_def', Int.natCast_floor_eq_floor hpos]

end Places

/-! ## The layout of the file -/

section Layout

open AudioEncoder hiding Call call int

variable {p : AudioParameters} {keyStr : List UInt8} {w : Shared ℝ} {k : ℕ} {file : List ℝ}

/-- A new encoder of the mode. -/
noncomputable def markEncoder : AudioEncoder ℝ :=
  new default default .NonAudibleMultiTone (Floats.lit sampleRate) bufferSize
    (OxyCore.windowSizeFor (Floats.lit sampleRate : ℝ))

/-- The audio of a key with a number of four digits behind it. -/
def IsMark (keyStr : List UInt8) (w : Shared ℝ) (second : ℕ) (audio : List ℝ) : Prop :=
  ∃ stamp n, stamp.length = 4 ∧ fromBaseToDec stamp 4 32 = BitVec.ofInt 32 second ∧
    audioOf (markEncoder.EncodeDataToAudioBuffer ⟨w.globals, w.synthVolume, fun _ => 0⟩
      ((keyStr ++ stamp).map Char.ofUInt8) synthMode []) = some (n, audio)

/-- The mark `k` is in the file, at its place and at the level of the parameters. -/
def MarkAt (p : AudioParameters) (keyStr : List UInt8) (w : Shared ℝ) (k : ℕ) (file : List ℝ) : Prop :=
  ∃ audio, IsMark keyStr w (markSecond p k) audio ∧
    (file.drop (markStart p k)).take markLength = audio.map (defUndertoneLevel p * ·)

/-- The sample `i` belongs to the mark `k`. -/
def InMark (p : AudioParameters) (k i : ℕ) : Prop := markStart p k ≤ i ∧ i < markStart p k + markLength

/-- A file that is complete. -/
structure Marked (p : AudioParameters) (keyStr : List UInt8) (w : Shared ℝ) (file : List ℝ) : Prop where
  complete : p.duration * sampleRate ≤ file.length
  length : (file.length : ℚ) < p.duration * sampleRate + markLength
  marks : ∀ k, Due p k → markStart p k + markLength ≤ file.length ∧ MarkAt p keyStr w k file
  silence : ∀ i < file.length, (∀ k, Due p k → ¬ InMark p k i) → file[i]? = some (Floats.lit 0)
  level : ∀ x ∈ file, |x| ≤ 0.7 * defUndertoneLevel p

/-- What is written before the mark `k`. -/
structure Laid (p : AudioParameters) (keyStr : List UInt8) (w : Shared ℝ) (k : ℕ) (file : List ℝ) : Prop where
  buffers : bufferSize ∣ file.length
  early : file.length ≤ markStart p k
  due : ∀ j < k, Due p j
  past : ∀ j < k, markStart p j + markLength ≤ file.length
  marks : ∀ j < k, MarkAt p keyStr w j file
  silence : ∀ i < file.length, (∀ j < k, ¬ InMark p j i) → file[i]? = some (Floats.lit 0)
  level : ∀ x ∈ file, |x| ≤ 0.7 * defUndertoneLevel p

/-- What follows does not change a mark. -/
theorem MarkAt.append (h : MarkAt p keyStr w k file) (hpast : markStart p k + markLength ≤ file.length)
    (more : List ℝ) : MarkAt p keyStr w k (file ++ more) := by
  obtain ⟨audio, hmark, htake⟩ := h
  refine ⟨audio, hmark, ?_⟩
  rw [List.drop_append_of_le_length (by omega), List.take_append_of_le_length, htake]
  rw [List.length_drop]
  omega

theorem laid_nil : Laid p keyStr w 0 [] where
  buffers := Nat.dvd_zero _
  early := Nat.zero_le _
  due j hj := absurd hj (Nat.not_lt_zero j)
  past j hj := absurd hj (Nat.not_lt_zero j)
  marks j hj := absurd hj (Nat.not_lt_zero j)
  silence i hi := absurd hi (Nat.not_lt_zero i)
  level _ hx := absurd hx List.not_mem_nil

theorem Laid.writeSilence (h : Laid p keyStr w k file) (hplace : file.length + bufferSize ≤ markStart p k) :
    Laid p keyStr w k (file ++ List.replicate bufferSize (Floats.lit 0)) where
  buffers := by
    rw [List.length_append, List.length_replicate]
    exact Nat.dvd_add h.buffers (Nat.dvd_refl _)
  early := by
    rw [List.length_append, List.length_replicate]
    exact hplace
  due := h.due
  past j hj := by
    rw [List.length_append]
    exact (h.past j hj).trans (Nat.le_add_right _ _)
  marks j hj := (h.marks j hj).append (h.past j hj) _
  silence i hi hout := by
    by_cases hold : i < file.length
    · rw [List.getElem?_append_left hold]
      exact h.silence i hold hout
    · rw [List.length_append, List.length_replicate] at hi
      rw [List.getElem?_append_right (by omega), List.getElem?_replicate, if_pos (by omega)]
  level x hx := by
    rcases List.mem_append.1 hx with hold | hnew
    · exact h.level x hold
    · rw [List.eq_of_mem_replicate hnew, lit_eq, Rat.cast_zero, abs_zero]
      exact mul_nonneg (by norm_num) (gain_nonneg _)

theorem Laid.writeMark (h : Laid p keyStr w k file) (hp : Accepted p) (hplace : markStart p k ≤ file.length)
    (hdue : Due p k) {audio : List ℝ} (hmark : IsMark keyStr w (markSecond p k) audio)
    (hlength : audio.length = markLength) (hlevel : ∀ x ∈ audio, |x| ≤ 0.7) :
    Laid p keyStr w (k + 1) (file ++ audio.map (defUndertoneLevel p * ·)) := by
  have hhere : file.length = markStart p k := h.early.antisymm hplace
  have hend : (file ++ audio.map (defUndertoneLevel p * ·)).length = markStart p k + markLength := by
    rw [List.length_append, List.length_map, hhere, hlength]
  constructor
  case buffers =>
    rw [hend, ← hhere]
    exact Nat.dvd_add h.buffers (by decide)
  case early => exact hend.le.trans (markStart_succ hp k)
  case due =>
    intro j hj
    rcases Nat.lt_succ_iff_lt_or_eq.1 hj with hold | rfl
    · exact h.due j hold
    · exact hdue
  case past =>
    intro j hj
    rcases Nat.lt_succ_iff_lt_or_eq.1 hj with hold | rfl
    · have hpast := h.past j hold
      omega
    · exact hend.ge
  case marks =>
    intro j hj
    rcases Nat.lt_succ_iff_lt_or_eq.1 hj with hold | rfl
    · exact (h.marks j hold).append (h.past j hold) _
    · refine ⟨audio, hmark, ?_⟩
      rw [← hhere, List.drop_left, List.take_of_length_le]
      rw [List.length_map, hlength]
  case silence =>
    intro i hi hout
    have hold : i < file.length := by
      have hk := hout k (Nat.lt_succ_self k)
      unfold InMark at hk
      omega
    rw [List.getElem?_append_left hold]
    exact h.silence i hold fun j hj => hout j (Nat.lt_succ_of_lt hj)
  case level =>
    intro x hx
    rcases List.mem_append.1 hx with hold | hnew
    · exact h.level x hold
    · obtain ⟨y, hy, rfl⟩ := List.mem_map.1 hnew
      have hnonneg : (0 : ℝ) ≤ defUndertoneLevel p := gain_nonneg _
      rw [abs_mul, abs_of_nonneg hnonneg, mul_comm]
      exact mul_le_mul_of_nonneg_right (hlevel y hy) hnonneg

/-- Where the loop ends, every mark that is due is in the file. -/
theorem Laid.marked (h : Laid p keyStr w k file) (hp : Accepted p) (hcomplete : p.duration * sampleRate ≤ file.length)
    (hlength : (file.length : ℚ) < p.duration * sampleRate + markLength) : Marked p keyStr w file := by
  have hpast : ∀ j, Due p j → j < k := by
    intro j hj
    by_contra hge
    have hmono := markStart_mono hp (not_lt.1 hge)
    have hlate : (file.length : ℚ) ≤ markStart p j := by exact_mod_cast h.early.trans hmono
    exact absurd (hcomplete.trans hlate) (not_le.2 hj)
  exact {
    complete := hcomplete
    length := hlength
    marks := fun j hj => ⟨h.past j (hpast j hj), h.marks j (hpast j hj)⟩
    silence := fun i hi hout => h.silence i hi fun j hj => hout j (h.due j hj)
    level := h.level }

end Layout

/-! ## The object -/

section Objects

open AudioEncoder hiding Call call int

variable {audio : List ℝ} {index : ℕ} {o : COxyCore ℝ} {w : Shared ℝ}

/-- The encoder of the object transmits what a new one does. -/
def Ready (o : COxyCore ℝ) (m : SignedEncoder ℝ) : Prop :=
  o.mEncoder = some (.multi m) ∧ m.mnAudioSignatureSamples = 0 ∧ SameSetup markEncoder m.encoder ∧
    m.encoder.mBufferSize = bufferSize

/-- Its audio was handed over up to `index`. -/
def Reading (audio : List ℝ) (index : ℕ) (o : COxyCore ℝ) : Prop :=
  ∃ m, Ready o m ∧ m.encoder.mNumSamplesEncodedString ≤ m.encoder.mNumMaxSamplesEncodedString ∧
    m.encoder.encoded = audio ∧ m.encoder.mReadIndexEncodedAudioBuffer = index

theorem markEncoder_rate : markEncoder.mSampleRate = 44100 := by
  show (Floats.lit sampleRate : ℝ) = 44100
  rw [lit_eq, sampleRate]
  norm_num

theorem markEncoder_signature : markEncoder.mAudioSignature = [] := rfl

theorem configure_ready (mem : Memory ℝ) (o : COxyCore ℝ) (w : Shared ℝ) : ∃ o' w', call (.Configure mem mode
    (Floats.lit sampleRate) bufferSize) o w = some (.ret 0, o', w') ∧ ∃ m, Ready o' m := by
  have hsetup : SameSetup markEncoder (AudioEncoder.new mem.reedSolomon mem.audio .NonAudibleMultiTone
      (Floats.lit sampleRate : ℝ) bufferSize (OxyCore.windowSizeFor (Floats.lit sampleRate : ℝ))) := new_same
  exact ⟨_, _, rfl, _, rfl, rfl, hsetup, rfl⟩

/-- Nine characters of the alphabet are encoded as a new encoder does it. -/
theorem encode_reading {m : SignedEncoder ℝ} (hready : Ready o m) {string : List Char} (hlen : string.length = 9)
    (hc : ∀ c ∈ string, Globals.InAlphabet c) : ∃ (n : ℕ) (audio : List ℝ) (o' : COxyCore ℝ),
      call (.EncodeDataToAudioBuffer string synthMode [] fun _ => 0) o w = some (.ret n, o', w) ∧ Reading audio 0 o' ∧
        audioOf (markEncoder.EncodeDataToAudioBuffer ⟨w.globals, w.synthVolume, fun _ => 0⟩ string synthMode []) =
          some (n, audio) ∧ audio.length = markLength ∧ ∀ x ∈ audio, |x| ≤ 0.7 := by
  obtain ⟨ho, hnone, hsetup, hbuffer⟩ := hready
  have hrate : m.encoder.mSampleRate = 44100 := hsetup.mSampleRate.trans markEncoder_rate
  have hempty : m.encoder.mAudioSignature = [] := hsetup.mAudioSignature.trans markEncoder_signature
  have hn := samplesPerDigit_44100 hrate
  have hmax := maxSamples_44100 hrate
  obtain ⟨n, e', hencode, hnum, hencoded, hlevel⟩ := encode_plain hempty (by omega) (by omega) (by omega) hc
    ⟨w.globals, w.synthVolume, fun _ => 0⟩
  obtain ⟨hfit, hindex, hbuffer'⟩ := encode_fits hencode
  have haudio := audioOf_eq hsetup ⟨w.globals, w.synthVolume, fun _ => 0⟩ string synthMode []
  refine ⟨n, e'.encoded, _, encode_call ho hnone hempty hencode,
    ⟨_, ⟨rfl, hnone, hsetup.trans (encode_setup hencode), hbuffer'.trans hbuffer⟩, hfit, rfl, hindex⟩, ?_, ?_, hlevel⟩
  · rw [haudio]
    exact congrArg audioOf hencode
  · rw [encoded_length, hencoded, hnum, hlen, hn]
    rfl

theorem get_reading (h : Reading audio index o) : ∃ o', call .GetEncodedAudioBuffer o w =
    some (.samples ((audio.drop index).take bufferSize).length ((audio.drop index).take bufferSize), o', w) ∧
      Reading audio (index + ((audio.drop index).take bufferSize).length) o' := by
  obtain ⟨m, ⟨ho, hnone, hsetup, hbuffer⟩, hfit, rfl, rfl⟩ := h
  have hread := getEncodedAudioBuffer_eq hfit
  rw [hbuffer] at hread
  exact ⟨_, get_call ho hread, _, ⟨rfl, hnone, hsetup.trans ⟨rfl, rfl, rfl, rfl⟩, rfl⟩, hfit, rfl, rfl⟩

theorem reset_ready (h : Reading audio index o) : ∃ r o', call .ResetEncodedAudioBuffer o w = some (r, o', w) ∧
    ∃ m, Ready o' m := by
  obtain ⟨m, ⟨ho, hnone, hsetup, hbuffer⟩, -⟩ := h
  have huse : use .ResetEncodedAudioBuffer w o = some (.ret 0,
      { o with mEncoder := some (.multi { m with encoder := m.encoder.ResetEncodedAudioBuffer }) }) := by
    show o.onEncoder _ = _
    unfold onEncoder
    rw [ho]
    rfl
  have hcall : call .ResetEncodedAudioBuffer o w = some (.ret 0,
      { o with mEncoder := some (.multi { m with encoder := m.encoder.ResetEncodedAudioBuffer }) }, w) := by
    rw [call_use rfl, huse]
    rfl
  exact ⟨_, _, hcall, _, rfl, hnone, hsetup.trans ⟨rfl, rfl, rfl, rfl⟩, hbuffer⟩

end Objects

/-! ## The rounds of the model -/

section Fuel

variable {F D : Type} [Doubles D] [Floats F D] [CFFTOoura F] [Synthesis F D] {p : AudioParameters}
  {keyStr : List UInt8} {st s : Writing F} {fuel fuel' : ℕ}

theorem writeMark_mono (h : writeMark fuel p keyStr st = some s) (hle : fuel ≤ fuel') :
    writeMark fuel' p keyStr st = some s := by
  unfold writeMark at h ⊢
  simp only [Option.bind_eq_bind] at h ⊢
  obtain ⟨timestamp, htimestamp, h⟩ := Option.bind_eq_some_iff.1 h
  obtain ⟨string, hstring, h⟩ := Option.bind_eq_some_iff.1 h
  obtain ⟨⟨r, o, w⟩, hencode, h⟩ := Option.bind_eq_some_iff.1 h
  obtain ⟨s', hloop, h⟩ := Option.bind_eq_some_iff.1 h
  rw [htimestamp, Option.bind_some, hstring, Option.bind_some, hencode, Option.bind_some, doWhileM_mono hloop hle]
  exact h

theorem writeNext_mono (h : writeNext fuel p keyStr st = some s) (hle : fuel ≤ fuel') :
    writeNext fuel' p keyStr st = some s := by
  unfold writeNext at h ⊢
  by_cases hdue : st.currentTimeInSeconds ≥ st.nextMarkTime - durToken * 20
  · rw [if_pos hdue] at h ⊢
    exact writeMark_mono h hle
  · rw [if_neg hdue] at h ⊢
    exact h

end Fuel

/-! ## The loops -/

section Loops

variable {p : AudioParameters} {keyStr : List UInt8} {st : Writing ℝ} {audio : List ℝ} {index fuel : ℕ}

/-- The samples up to `index` of the audio of a mark are written, in a loop that started in `st`. -/
structure Reads (p : AudioParameters) (audio : List ℝ) (st : Writing ℝ) (index : ℕ) (s : Writing ℝ) : Prop where
  reading : Reading audio index s.mOxyCore
  le : index ≤ audio.length
  file : s.file = st.file ++ (audio.take index).map (defUndertoneLevel p * ·)
  time : s.currentTimeInSeconds = st.currentTimeInSeconds + index / sampleRate
  nextMarkTime : s.nextMarkTime = st.nextMarkTime
  shared : s.shared = st.shared

theorem Reads.next {s : Writing ℝ} (h : Reads p audio st index s) : ∃ s' n, writeBuffer p s = some s' ∧
    n = min bufferSize (audio.length - index) ∧ s'.samplesRetrieved = n ∧ Reads p audio st (index + n) s' := by
  obtain ⟨o', hget, hreading⟩ := get_reading (w := s.shared) h.reading
  have hlen : ((audio.drop index).take bufferSize).length = min bufferSize (audio.length - index) := by
    rw [List.length_take, List.length_drop]
  have htake : audio.take index ++ (audio.drop index).take bufferSize =
      audio.take (index + ((audio.drop index).take bufferSize).length) := by
    rw [List.take_add, hlen, ← List.length_drop, ← List.take_eq_take_min]
  refine ⟨_, _, congrArg (Option.bind · _) hget, hlen, rfl, hreading, ?_, ?_, ?_, h.nextMarkTime, h.shared⟩
  · have hle := h.le
    omega
  · show s.file ++ ((audio.drop index).take bufferSize).map (defUndertoneLevel p * ·) = _
    rw [h.file, List.append_assoc, ← List.map_append, htake]
  · show s.currentTimeInSeconds + (((audio.drop index).take bufferSize).length : ℤ) / sampleRate = _
    rw [h.time]
    push_cast
    ring

/-- While the loop runs, and where it ends. -/
def Progress (p : AudioParameters) (audio : List ℝ) (st s : Writing ℝ) : Prop :=
  ∃ index, Reads p audio st index s ∧ (s.samplesRetrieved ≤ 0 → index = audio.length)

/-- A bound on the rounds left: a round writes something, or it is the last one. -/
def roundsLeft (audio : List ℝ) (st s : Writing ℝ) : ℕ :=
  2 * (st.file.length + audio.length - s.file.length) + if 0 < s.samplesRetrieved then 1 else 0

theorem Reads.length {s : Writing ℝ} (h : Reads p audio st index s) : s.file.length = st.file.length + index := by
  have hle := h.le
  rw [h.file, List.length_append, List.length_map, List.length_take]
  omega

theorem Reads.round {s : Writing ℝ} (h : Reads p audio st index s) : ∃ s', writeBuffer p s = some s' ∧
    Progress p audio st s' ∧ roundsLeft audio st s' < 2 * (audio.length - index) + 1 := by
  obtain ⟨s', n, hbody, hn, hretrieved, hs'⟩ := h.next
  have hlength := hs'.length
  have hle := hs'.le
  rw [bufferSize] at hn
  refine ⟨s', hbody, ⟨index + n, hs', fun hend => ?_⟩, ?_⟩
  · rw [hretrieved] at hend
    omega
  · unfold roundsLeft
    rw [hlength, hretrieved]
    split <;> omega

/-- The inner loop writes the whole audio of the mark. -/
theorem writeBuffers_total (h : Reading audio 0 st.mOxyCore) (hfuel : 2 * audio.length < fuel) :
    ∃ s, doWhileM (fun st => decide (0 < st.samplesRetrieved)) (writeBuffer p) fuel st = some s ∧
      Reads p audio st audio.length s := by
  have hstart : Reads p audio st 0 st :=
    ⟨h, Nat.zero_le _, by rw [List.take_zero, List.map_nil, List.append_nil], by simp, rfl, rfl⟩
  have hfirst : ∃ s, writeBuffer p st = some s ∧ Progress p audio st s ∧ roundsLeft audio st s < fuel := by
    obtain ⟨s, hbody, hs, hless⟩ := hstart.round
    exact ⟨s, hbody, hs, by omega⟩
  have hrounds : ∀ s, Progress p audio st s → decide (0 < s.samplesRetrieved) = true →
      ∃ s', writeBuffer p s = some s' ∧ Progress p audio st s' ∧ roundsLeft audio st s' < roundsLeft audio st s := by
    rintro s ⟨index, hs, -⟩ hcond
    obtain ⟨s', hbody, hs', hless⟩ := hs.round
    have hlength := hs.length
    refine ⟨s', hbody, hs', hless.trans_le ?_⟩
    rw [roundsLeft, if_pos (of_decide_eq_true hcond)]
    omega
  obtain ⟨s, hloop, ⟨index, hs, hlast⟩, hend⟩ :=
    doWhileM_total (Progress p audio st) (roundsLeft audio st) hrounds hfirst
  obtain rfl := hlast (not_lt.1 (of_decide_eq_false hend))
  exact ⟨s, hloop, hs⟩

/-- A mark that is due is written. -/
theorem writeMark_total {m : SignedEncoder ℝ} (hready : Ready st.mOxyCore m) (hkey : IsKey keyStr) {second : ℕ}
    (hint : int (st.nextMarkTime + 0.5) = second) (hsecond : second < 32 ^ 4) (hfuel : 2 * markLength < fuel) :
    ∃ s audio, writeMark fuel p keyStr st = some s ∧ IsMark keyStr st.shared second audio ∧
      audio.length = markLength ∧ (∀ x ∈ audio, |x| ≤ 0.7) ∧
        s.file = st.file ++ audio.map (defUndertoneLevel p * ·) ∧
        s.currentTimeInSeconds = st.currentTimeInSeconds + markLength / sampleRate ∧
        s.nextMarkTime = st.nextMarkTime + p.interval ∧ s.shared = st.shared ∧ ∃ m, Ready s.mOxyCore m := by
  obtain ⟨hlen5, hmem5⟩ := hkey
  obtain ⟨stamp, hstamp, hlen, hmem, hread⟩ := currentTimestamp_eq hsecond
  have hstring : stringToDecode keyStr stamp = some (keyStr ++ stamp) :=
    if_pos (by rw [List.length_append, hlen5, hlen]; decide)
  have hlen9 : ((keyStr ++ stamp).map Char.ofUInt8).length = 9 := by
    rw [List.length_map, List.length_append, hlen5, hlen]
  have halphabet : ∀ c ∈ (keyStr ++ stamp).map Char.ofUInt8, Globals.InAlphabet c := by
    intro c hc
    obtain ⟨b, hb, rfl⟩ := List.mem_map.1 hc
    rcases List.mem_append.1 hb with hb | hb
    · exact inAlphabet_of_mem (hmem5 b hb)
    · exact inAlphabet_of_mem (hmem b hb)
  obtain ⟨n, audio, o, hencode, hreading, haudio, hlength, hlevel⟩ :=
    encode_reading (w := st.shared) hready hlen9 halphabet
  have hreading' : Reading audio 0 { st with mOxyCore := o, shared := st.shared }.mOxyCore := hreading
  obtain ⟨s, hloop, hs⟩ := writeBuffers_total (p := p) hreading' (by rw [hlength]; exact hfuel)
  obtain ⟨r, o', hreset, hready'⟩ := reset_ready (w := s.shared) hs.reading
  have htime := hs.time
  rw [hlength] at htime
  have hfile := hs.file
  rw [List.take_length] at hfile
  have hwrite : writeMark fuel p keyStr st =
      some { s with nextMarkTime := s.nextMarkTime + p.interval, mOxyCore := o', shared := s.shared } := by
    unfold writeMark
    simp only [Option.bind_eq_bind]
    rw [hint, hstamp, Option.bind_some, hstring, Option.bind_some, hencode, Option.bind_some, hloop,
      Option.bind_some, hreset]
    rfl
  exact ⟨_, audio, hwrite, ⟨stamp, n, hlen, hread, haudio⟩, hlength, hlevel, hfile, htime,
    congrArg (· + p.interval) hs.nextMarkTime, hs.shared, hready'⟩

/-- What holds between the rounds of the outer loop. -/
structure Writes (p : AudioParameters) (keyStr : List UInt8) (w : Shared ℝ) (k : ℕ) (s : Writing ℝ) : Prop where
  laid : Laid p keyStr w k s.file
  time : s.currentTimeInSeconds = s.file.length / sampleRate
  nextMarkTime : s.nextMarkTime = markTime p k
  shared : s.shared = w
  ready : ∃ m, Ready s.mOxyCore m
  length : (s.file.length : ℚ) < p.duration * sampleRate + markLength

/-- A round before the end writes a buffer of silence or a mark. -/
theorem Writes.next {k : ℕ} {w : Shared ℝ} (h : Writes p keyStr w k st) (hp : Accepted p) (hkey : IsKey keyStr)
    (hfuel : 2 * markLength < fuel) (hgoes : st.currentTimeInSeconds < p.duration) :
    ∃ s, writeNext fuel p keyStr st = some s ∧ (∃ k', Writes p keyStr w k' s) ∧ st.file.length < s.file.length := by
  have hbefore : (st.file.length : ℚ) < p.duration * sampleRate := by
    rw [h.time, sampleRate] at hgoes
    rw [sampleRate]
    linarith
  have hguard : st.currentTimeInSeconds ≥ st.nextMarkTime - durToken * 20 ↔
      markTime p k - durToken * 20 ≤ (st.file.length : ℚ) / sampleRate := by
    rw [h.time, h.nextMarkTime]
  unfold writeNext
  by_cases hdue : st.currentTimeInSeconds ≥ st.nextMarkTime - durToken * 20
  · rw [if_pos hdue]
    have hplace := writeMark_place h.laid.buffers (hguard.1 hdue)
    have hk : Due p k := lt_of_le_of_lt (by exact_mod_cast hplace) hbefore
    have hint : int (st.nextMarkTime + 0.5) = markSecond p k := by
      rw [h.nextMarkTime]
      exact int_markTime hp k
    obtain ⟨m, hready⟩ := h.ready
    obtain ⟨s, audio, hwrite, hmark, hlength, hlevel, hfile, htime, hnext, hshared, hready'⟩ :=
      writeMark_total (p := p) hready hkey hint (markSecond_lt hp hk) hfuel
    rw [h.shared] at hmark
    have hlen : s.file.length = st.file.length + markLength := by
      rw [hfile, List.length_append, List.length_map, hlength]
    refine ⟨s, hwrite, ⟨k + 1, ?_, ?_, ?_, hshared.trans h.shared, hready', ?_⟩, ?_⟩
    · rw [hfile]
      exact h.laid.writeMark hp hplace hk hmark hlength hlevel
    · rw [htime, h.time, hlen]
      push_cast
      ring
    · rw [hnext, h.nextMarkTime, markTime, markTime]
      push_cast
      ring
    · rw [hlen]
      push_cast
      linarith
    · rw [hlen, markLength]
      omega
  · rw [if_neg hdue]
    have hearly : (st.file.length : ℚ) / sampleRate < markTime p k - durToken * 20 := not_le.1 (mt hguard.2 hdue)
    have hlen : (writeSilence st).file.length = st.file.length + bufferSize := by
      show (st.file ++ List.replicate bufferSize _).length = _
      rw [List.length_append, List.length_replicate]
    refine ⟨_, rfl, ⟨k, h.laid.writeSilence (writeSilence_place h.laid.buffers hearly), ?_, h.nextMarkTime, h.shared,
      h.ready, ?_⟩, ?_⟩
    · show st.currentTimeInSeconds + bufferSize / sampleRate = _
      rw [h.time, hlen]
      push_cast
      ring
    · rw [hlen, markLength, bufferSize]
      push_cast
      linarith
    · rw [hlen, bufferSize]
      omega

/-- A number of rounds that is enough for each of the loops. -/
def rounds (p : AudioParameters) : ℕ := ⌈p.duration * sampleRate⌉₊ + 2 * markLength

/-- The outer loop ends, with the file complete. -/
theorem writeNext_total (hp : Accepted p) (hkey : IsKey keyStr) {o : COxyCore ℝ} {w : Shared ℝ}
    (hready : ∃ m, Ready o m) (hfuel : rounds p < fuel) :
    ∃ s, whileM (fun st => decide (st.currentTimeInSeconds < p.duration)) (writeNext fuel p keyStr) fuel
      ⟨0, max p.startTime min_startTime, 0, [], o, w⟩ = some s ∧ s.shared = w ∧ Marked p keyStr w s.file := by
  unfold rounds at hfuel
  have hbegins := hp.begins
  have hends := hp.ends
  have hstart : Writes p keyStr w 0 ⟨0, max p.startTime min_startTime, 0, [], o, w⟩ := by
    refine ⟨laid_nil, by simp, ?_, rfl, hready, ?_⟩
    · show max p.startTime min_startTime = markTime p 0
      rw [max_eq_left hbegins, markTime]
      simp
    · rw [min_startTime, durToken] at hbegins
      rw [sampleRate, markLength]
      simp only [List.length_nil]
      push_cast
      linarith
  have hinner : 2 * markLength < fuel := by omega
  have hrounds : ∀ s, (∃ k, Writes p keyStr w k s) → decide (s.currentTimeInSeconds < p.duration) = true →
      ∃ s', writeNext fuel p keyStr s = some s' ∧ (∃ k, Writes p keyStr w k s') ∧
        ⌈p.duration * sampleRate⌉₊ - s'.file.length < ⌈p.duration * sampleRate⌉₊ - s.file.length := by
    rintro s ⟨k, hs⟩ hcond
    have hgoes := of_decide_eq_true hcond
    obtain ⟨s', hbody, hs', hmore⟩ := hs.next hp hkey hinner hgoes
    have hleft : s.file.length < ⌈p.duration * sampleRate⌉₊ := by
      rw [hs.time, sampleRate] at hgoes
      rw [Nat.lt_ceil, sampleRate]
      linarith
    exact ⟨s', hbody, hs', by omega⟩
  obtain ⟨s, hloop, ⟨k, hs⟩, hend⟩ := whileM_total (∃ k, Writes p keyStr w k ·)
    (fun s => ⌈p.duration * sampleRate⌉₊ - s.file.length) hrounds fuel
    ⟨0, max p.startTime min_startTime, 0, [], o, w⟩ ⟨0, hstart⟩ (by simp only [List.length_nil]; omega)
  have hcomplete : p.duration * sampleRate ≤ s.file.length := by
    have hstop := not_lt.1 (of_decide_eq_false hend)
    rw [hs.time, sampleRate] at hstop
    rw [sampleRate]
    linarith
  exact ⟨s, hloop, hs.shared, hs.laid.marked hp hcomplete hs.length⟩

end Loops

/-! ## The program -/

section Files

variable {p : AudioParameters} {keyStr : List UInt8} {memCore : COxyCore ℝ} {mem : Memory ℝ} {w : Shared ℝ}

/-- With a key the program comes to its outer loop. -/
theorem generateAudio_eq (hp : Accepted p) (hkey : IsKey keyStr) (fuel : ℕ) {r : Answer ℝ} {o : COxyCore ℝ}
    {w' : Shared ℝ} (hconfigure : call (.Configure mem mode (Floats.lit sampleRate) bufferSize) (Create memCore)
      { w with synthVolume := Floats.lit 0 } = some (r, o, w')) :
    generateAudio fuel p memCore mem w keyStr =
      (whileM (fun st => decide (st.currentTimeInSeconds < p.duration)) (writeNext fuel p keyStr) fuel
        ⟨0, max p.startTime min_startTime, 0, [], o, w'⟩).bind fun st =>
          some ((0, some (keyStr ++ wav, st.file)), st.shared) := by
  have hbad : ¬ ∃ c ∈ keyStr, charToVal c = -1 := by
    rintro ⟨c, hc, hval⟩
    exact (charToVal_eq_neg_one c).1 hval (hkey.2 c hc)
  have hends : ¬ (p.startTime > p.duration ∨ p.startTime < min_startTime) := by
    rintro (hlate | hearly)
    · exact absurd hp.ends (not_le.2 hlate)
    · exact absurd hp.begins (not_le.2 hearly)
  have hvolume : call (.SetSynthVolume (Floats.lit 0)) (Create memCore) w =
      some (.ret 0, Create memCore, { w with synthVolume := Floats.lit 0 }) := rfl
  unfold generateAudio
  rw [if_neg (not_not.2 hkey.1), if_neg hbad, if_neg (not_lt.2 hp.interval), if_neg (not_lt.2 hp.duration),
    if_neg (not_lt.2 hp.day), if_neg hends]
  simp only [Option.bind_eq_bind]
  rw [hvolume, Option.bind_some, hconfigure]
  rfl

/-- For all parameters that pass the checks and every key: the file is written, and the rounds that the model allows do
not matter from `rounds p` on. Every mark that is due is in the file, whole, at its place and with its time; there is
silence everywhere else, and no sample is louder than the level of the parameters. -/
theorem marks_written (hp : Accepted p) (hkey : IsKey keyStr) (memCore : COxyCore ℝ) (mem : Memory ℝ) (w : Shared ℝ) :
    ∃ file w', (∀ fuel, rounds p < fuel → generateAudio fuel p memCore mem w keyStr =
      some ((0, some (keyStr ++ wav, file)), w')) ∧ Marked p keyStr w' file := by
  obtain ⟨o, w', hconfigure, hready⟩ := configure_ready mem (Create memCore) { w with synthVolume := Floats.lit 0 }
  obtain ⟨s, hloop, hshared, hmarked⟩ := writeNext_total (w := w') hp hkey hready (Nat.lt_succ_self (rounds p))
  refine ⟨s.file, w', fun fuel hfuel => ?_, hmarked⟩
  have hloop' := whileM_mono (fun hnext => writeNext_mono hnext hfuel) hloop hfuel
  rw [generateAudio_eq hp hkey fuel hconfigure, hloop', Option.bind_some, hshared]

/-- The parameters of the source pass. -/
theorem audioParameters_accepted : Accepted audioParameters := by
  obtain ⟨hinterval, hduration, hday, hbegins⟩ := parameters_pass
  have hends := not_or.1 hbegins
  exact ⟨not_lt.1 hinterval, not_lt.1 hduration, not_lt.1 hday, not_lt.1 hends.2, not_lt.1 hends.1⟩

/-- With them there is a single mark, with the fifth second in it. -/
theorem due_audioParameters (k : ℕ) : Due audioParameters k ↔ k = 0 := by
  have hfirst : markStart audioParameters 0 = 128384 := by decide +kernel
  have hlength : audioParameters.duration * sampleRate = 224910 := by
    show Server.duration * sampleRate = 224910
    rw [Server.duration, sampleRate]
    norm_num
  unfold Due
  rw [hlength]
  constructor
  · intro hdue
    by_contra hne
    have hsecond : markStart audioParameters 1 = 569344 := by decide +kernel
    have hmono := markStart_mono audioParameters_accepted (Nat.one_le_iff_ne_zero.2 hne)
    rw [hsecond] at hmono
    have hlate : (569344 : ℚ) ≤ markStart audioParameters k := by exact_mod_cast hmono
    linarith
  · rintro rfl
    rw [hfirst]
    norm_num

example : markSecond audioParameters 0 = 5 := by decide +kernel

/-- The key of a message. -/
theorem marks_written_key : ∃ file w', (∀ fuel, rounds audioParameters < fuel →
    generateAudio fuel audioParameters ⟨none, none, 0, 0, 0⟩ ⟨default, fun _ => 0, default⟩ ⟨Globals.initial, 0⟩
      (['h', 'e', 'l', 'l', 'o'].map Char.toUInt8) =
        some ((0, some (['h', 'e', 'l', 'l', 'o', '.', 'w', 'a', 'v'].map Char.toUInt8, file)), w')) ∧
      Marked audioParameters (['h', 'e', 'l', 'l', 'o'].map Char.toUInt8) w' file :=
  marks_written audioParameters_accepted ⟨by decide, by simp [convArray]⟩ _ _ _

/-- The server's account of the program, which leaves out the audio. -/
theorem generateAudio_outcome (memCore : COxyCore ℝ) (mem : Memory ℝ) (w : Shared ℝ) (keyStr : List UInt8) {fuel : ℕ}
    (hfuel : rounds audioParameters < fuel) : (generateAudio fuel audioParameters memCore mem w keyStr).map
      (fun r => (r.1.1, r.1.2.map Prod.fst)) = some (Server.generateAudio keyStr) := by
  rcases generateAudio_spec keyStr with ⟨hkey, heq⟩ | ⟨hnot, heq⟩
  · obtain ⟨o, w', hconfigure, hready⟩ := configure_ready mem (Create memCore) { w with synthVolume := Floats.lit 0 }
    obtain ⟨s, hloop, -, -⟩ := writeNext_total (w := w') audioParameters_accepted hkey hready hfuel
    rw [generateAudio_eq audioParameters_accepted hkey fuel hconfigure, hloop, heq]
    rfl
  · have hfailed : generateAudio fuel audioParameters memCore mem w keyStr = some ((-1, none), w) := by
      unfold generateAudio
      by_cases hlen : keyStr.length ≠ 5
      · rw [if_pos hlen]
      · rw [if_neg hlen, if_pos]
        by_contra hall
        refine hnot ⟨not_not.1 hlen, fun c hc => ?_⟩
        by_contra hmem
        exact hall ⟨c, hc, (charToVal_eq_neg_one c).2 hmem⟩
    rw [hfailed, heq]
    rfl

end Files

end AudioFile

end Undertone
