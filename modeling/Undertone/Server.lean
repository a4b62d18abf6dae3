import Mathlib.Data.List.Basic
import Mathlib.Data.Rat.Defs
import Mathlib.Tactic.NormNum

/-!
# The server: `UndertoneMain.cpp` and `app.js`

The server answers a message on `/audio` with the message itself, after `generateAudio` has made an audio file named
after it; the client derives the name of the file from the first five characters of the answer. Names are bytes on the
server and UTF-16 units in the client. The file that the client asks for is the one that was written exactly for the
messages that `generateAudio` takes as a key (`acknowledged_iff`): five symbols of the alphabet.
-/

namespace Undertone

namespace Server

/-! ## `generateAudio` -/

/-- The symbols of a key, in the order of their values. -/
def convArray : List UInt8 :=
  ['0', '1', '2', '3', '4', '5', '6', '7', '8', '9', 'a', 'b', 'c', 'd', 'e', 'f', 'g', 'h', 'i', 'j', 'k', 'l', 'm',
    'n', 'o', 'p', 'q', 'r', 's', 't', 'u', 'v'].map Char.toUInt8

def charToVal (curChar : UInt8) : ℤ :=
  match convArray.findIdx? (curChar == ·) with
  | some i => i
  | none => -1

/-- `.wav` -/
def wav : List UInt8 := ['.', 'w', 'a', 'v'].map Char.toUInt8

/-! The parameters of the audio, fixed in the source; the floats at their decimal values. -/

def durToken : ℚ := 0.104489796
def duration : ℚ := 5.1
def interval : ℚ := 10
def startTime : ℚ := 5
def min_startTime : ℚ := durToken * 20 + 0.1
def min_interval : ℚ := durToken * 20 + 0.2
def min_duration : ℚ := startTime + 0.1

/-- The value returned and the name of the file that was written, if any; creating the file succeeds. -/
def generateAudio (keyStr : List UInt8) : ℤ × Option (List UInt8) :=
  let outputFnStr := keyStr ++ wav
  if keyStr.length ≠ 5 then (-1, none)
  else if ∃ c ∈ keyStr, charToVal c = -1 then (-1, none)
  else if interval < min_interval then (-1, none)
  else if duration < min_duration then (-1, none)
  else if duration > 86400 then (-1, none)
  else if startTime > duration ∨ startTime < min_startTime then (-1, none)
  else (0, some outputFnStr)

/-! ## The handler -/

/-- What the handler does with a message. -/
structure Handled where
  /-- The part of the message that the log calls the answer. -/
  logged : List UInt8
  /-- What `generateAudio` returned, and the name of its file. -/
  generated : ℤ × Option (List UInt8)
  /-- The answer, a text frame. -/
  sent : List UInt8

def on_message (in_message : List UInt8) : Handled :=
  let out_message := in_message
  let chunkSize := 5
  let chunk3 := out_message.take (if out_message.length < chunkSize then out_message.length else chunkSize)
  { logged := chunk3, generated := generateAudio out_message, sent := out_message }

/-! ## The client -/

/-- The UTF-16 units of a character. -/
def utf16 (c : Char) : List UInt16 :=
  if c.toNat < 0x10000 then [c.toNat.toUInt16]
  else [(0xD800 + (c.toNat - 0x10000) / 0x400).toUInt16, (0xDC00 + (c.toNat - 0x10000) % 0x400).toUInt16]

/-- The string that a text frame is received as, in UTF-16 units; a frame that is not UTF-8 is not received. -/
def text (frame : List UInt8) : Option (List UInt16) :=
  frame.toByteArray.utf8Decode?.map fun cs => cs.toList.flatMap utf16

/-- The name of the file in `audioSrc`. -/
def handleMessage (data : List UInt16) : List UInt16 := data.take 5 ++ ['.', 'w', 'a', 'v'].flatMap utf16

/-- The file that the client asks for after the answer is the file that was written for the message. -/
def Acknowledged (m : List UInt8) : Prop :=
  ∃ name, (text (on_message m).sent).map handleMessage = some name ∧
    ∃ file, (on_message m).generated.2 = some file ∧ text file = some name

/-! ## Keys -/

/-- A message that `generateAudio` makes a file for. -/
def IsKey (m : List UInt8) : Prop := m.length = 5 ∧ ∀ c ∈ m, c ∈ convArray

theorem charToVal_eq_neg_one (c : UInt8) : charToVal c = -1 ↔ c ∉ convArray := by
  unfold charToVal
  rcases h : convArray.findIdx? (c == ·) with _ | i
  · simpa [List.findIdx?_eq_none_iff, List.forall_mem_ne] using h
  · obtain ⟨hi, hc, -⟩ := List.findIdx?_eq_some_iff_getElem.1 h
    have hmem : c ∈ convArray := by
      rw [beq_iff_eq.1 hc]
      exact List.getElem_mem hi
    simp only [hmem, not_true_eq_false, iff_false]
    omega

/-- The fixed parameters pass their checks. -/
theorem parameters_pass : ¬ interval < min_interval ∧ ¬ duration < min_duration ∧ ¬ duration > 86400 ∧
    ¬ (startTime > duration ∨ startTime < min_startTime) := by
  simp only [interval, min_interval, duration, min_duration, startTime, min_startTime, durToken]
  norm_num

theorem generateAudio_spec (m : List UInt8) :
    IsKey m ∧ generateAudio m = (0, some (m ++ wav)) ∨ ¬ IsKey m ∧ generateAudio m = (-1, none) := by
  obtain ⟨h1, h2, h3, h4⟩ := parameters_pass
  have hbad : (∃ c ∈ m, charToVal c = -1) ↔ ¬ ∀ c ∈ m, c ∈ convArray := by
    simp only [charToVal_eq_neg_one]
    push Not
    rfl
  unfold generateAudio IsKey
  by_cases hlen : m.length = 5
  · by_cases hall : ∀ c ∈ m, c ∈ convArray
    · refine Or.inl ⟨⟨hlen, hall⟩, ?_⟩
      rw [if_neg (not_not.2 hlen), if_neg (fun h => hbad.1 h hall), if_neg h1, if_neg h2, if_neg h3, if_neg h4]
    · exact Or.inr ⟨fun h => hall h.2, (if_neg (not_not.2 hlen)).trans (if_pos (hbad.2 hall))⟩
  · exact Or.inr ⟨fun h => hlen h.1, if_pos hlen⟩

/-! ## Names -/

theorem toNat_ofUInt8 (c : UInt8) : (Char.ofUInt8 c).toNat = c.toNat := UInt8.toNat_toUInt32 c

/-- A list of ASCII bytes is the encoding of as many characters. -/
theorem flatMap_ofUInt8 {m : List UInt8} (h : ∀ c ∈ m, c.toNat < 128) :
    (m.map Char.ofUInt8).flatMap String.utf8EncodeChar = m := by
  induction m with
  | nil => rfl
  | cons c m ih =>
    have hc : String.utf8EncodeChar (Char.ofUInt8 c) = [c] := by
      have hle : (Char.ofUInt8 c).val.toNat ≤ 0x7f :=
        (toNat_ofUInt8 c).trans_le (Nat.le_of_lt_succ (h c List.mem_cons_self))
      refine (if_pos hle).trans ?_
      rw [show (Char.ofUInt8 c).val.toNat = c.toNat from toNat_ofUInt8 c, UInt8.ofNat_toNat]
    rw [List.map_cons, List.flatMap_cons, hc, ih fun d hd => h d (List.mem_cons_of_mem c hd), List.singleton_append]

/-- A list of ASCII bytes is received as it is. -/
theorem text_ascii {m : List UInt8} (h : ∀ c ∈ m, c.toNat < 128) : text m = some (m.map fun c => c.toNat.toUInt16) := by
  have hdecode : m.toByteArray.utf8Decode? = some (m.map Char.ofUInt8).toArray := by
    rw [← List.utf8Decode?_utf8Encode, List.utf8Encode, flatMap_ofUInt8 h]
  unfold text
  rw [hdecode, Option.map_some, List.toList_toArray, List.flatMap_map]
  have hunit : ∀ c ∈ m, utf16 (Char.ofUInt8 c) = [c.toNat.toUInt16] := fun c hc => by
    have := h c hc
    rw [utf16, toNat_ofUInt8, if_pos (by omega)]
  rw [List.map_eq_flatMap, List.flatMap_congr hunit]

theorem convArray_ascii : ∀ c ∈ convArray, c.toNat < 128 := by decide +kernel

/-- The client asks for the file that was written exactly when the message is a key. -/
theorem acknowledged_iff (m : List UInt8) : Acknowledged m ↔ m.length = 5 ∧ ∀ c ∈ m, c ∈ convArray := by
  constructor
  · rintro ⟨name, -, file, hfile, -⟩
    rcases generateAudio_spec m with ⟨hkey, -⟩ | ⟨-, hnone⟩
    · exact hkey
    · rw [on_message, hnone] at hfile
      exact absurd hfile (by simp)
  · intro hkey
    rcases generateAudio_spec m with ⟨-, hsome⟩ | ⟨hnot, -⟩
    · have hm : ∀ c ∈ m, c.toNat < 128 := fun c hc => convArray_ascii c (hkey.2 c hc)
      have hfile : ∀ c ∈ m ++ wav, c.toNat < 128 := fun c hc => by
        rcases List.mem_append.1 hc with h | h
        · exact hm c h
        · exact (by decide +kernel : ∀ c ∈ wav, c.toNat < 128) c h
      refine ⟨_, congrArg (Option.map handleMessage) (text_ascii hm), m ++ wav, ?_, ?_⟩
      · rw [on_message, hsome]
      · rw [text_ascii hfile, List.map_append, handleMessage, List.take_of_length_le (by simp [hkey.1])]
        rfl
    · exact absurd hkey hnot

/-- Eight digits: the log names the first five, `generateAudio` refuses all eight, and the client asks for a file that
nobody wrote. -/
theorem long_message_acknowledged : ¬ Acknowledged (['1', '2', '3', '4', '5', '6', '7', '8'].map Char.toUInt8) := by
  rintro ⟨name, -, file, hfile, -⟩
  rcases generateAudio_spec (['1', '2', '3', '4', '5', '6', '7', '8'].map Char.toUInt8) with ⟨hkey, -⟩ | ⟨-, hnone⟩
  · exact absurd hkey.1 (by decide)
  · rw [on_message, hnone] at hfile
    exact absurd hfile (by simp)

end Server

end Undertone
