import Mathlib.Data.List.Basic

/-!
# `Hex.cpp`

Byte strings and their hexadecimal digits. A `char` is a byte; whether it has a sign as an `int` is up to the compiler.
Both loops go through the strings two digits and one byte a round (`stream2hex_eq`, `hex2stream_eq`), so that the two
functions undo each other because they do on one byte.
-/

namespace Undertone

namespace HEX

/-- A `char` where the code computes with it. -/
def int (signed : Bool) (c : UInt8) : BitVec 32 := if signed then c.toBitVec.signExtend 32 else c.toBitVec.setWidth 32

/-- An `int` that is stored into a `char`. -/
def char (x : BitVec 32) : UInt8 := ⟨x.setWidth 8⟩

/-- `str.resize(n)` -/
def resize (n : ℕ) (str : List UInt8) : List UInt8 := str.take n ++ List.replicate (n - str.length) 0

/-- `str[i] & 0xFF`; there is a zero behind the last byte. -/
def byteAt (signed : Bool) (str : List UInt8) (i : ℕ) : ℕ := (int signed (str.getD i 0) &&& 0xFF#32).toNat

/-- `c > 0x9F ? (c / 16 - 9) | a : c / 16 | '0'` -/
def highDigit (a c : ℕ) : UInt8 := .ofNat (if c > 0x9F then (c / 16 - 9) ||| a else c / 16 ||| 0x30)

/-- `(c & 0xF) > 9 ? (c % 16 - 9) | a : c % 16 | '0'` -/
def lowDigit (a c : ℕ) : UInt8 := .ofNat (if c &&& 0xF > 9 then (c % 16 - 9) ||| a else c % 16 ||| 0x30)

/-- The loop of `stream2hex`, which advances `i` in its body. -/
def stream2hexLoop (signed : Bool) (str : List UInt8) (a : ℕ) : ℕ → ℕ → ℕ → List UInt8 → List UInt8
  | 0, _, _, hexstr => hexstr
  | fuel + 1, i, c, hexstr =>
    if i < hexstr.length then
      let hexstr := hexstr.set i (highDigit a c)
      let hexstr := hexstr.set (i + 1) (lowDigit a c)
      stream2hexLoop signed str a fuel (i + 2) (byteAt signed str ((i + 2) / 2)) hexstr
    else hexstr

/-- `stream2hex(str, hexstr, capital)` -/
def stream2hex (signed : Bool) (str hexstr : List UInt8) (capital : Bool) : List UInt8 :=
  let hexstr := resize (str.length * 2) hexstr
  let a := if capital then 0x41 - 1 else 0x61 - 1
  stream2hexLoop signed str a hexstr.length 0 (byteAt signed str 0) hexstr

/-- `hexstr[j] & '@' ? hexstr[j] + 9 : hexstr[j]` -/
def digit (signed : Bool) (hexstr : List UInt8) (j : ℕ) : BitVec 32 :=
  let x := int signed (hexstr.getD j 0)
  if x &&& 0x40#32 ≠ 0 then x + 9 else x

/-- The loop of `hex2stream`, which advances `j` in its body. -/
def hex2streamLoop (signed : Bool) (hexstr : List UInt8) : ℕ → ℕ → ℕ → List UInt8 → List UInt8
  | 0, _, _, str => str
  | fuel + 1, i, j, str =>
    if i < str.length then
      let str := str.set i (char (digit signed hexstr j <<< 4))
      let j := j + 1
      let str := str.set i (char (int signed (str.getD i 0) ||| digit signed hexstr j &&& 0xF#32))
      hex2streamLoop signed hexstr fuel (i + 1) (j + 1) str
    else str

/-- `hex2stream(hexstr, str)` -/
def hex2stream (signed : Bool) (hexstr str : List UInt8) : List UInt8 :=
  let str := resize ((hexstr.length + 1) / 2) str
  hex2streamLoop signed hexstr str.length 0 0 str

/-! ## The loops -/

section Loops

variable {signed : Bool} {a : ℕ}

@[simp] theorem length_resize (n : ℕ) (str : List UInt8) : (resize n str).length = n := by
  unfold resize
  rw [List.length_append, List.length_take, List.length_replicate]
  omega

/-- The two digits of a byte. -/
def digits (signed : Bool) (a : ℕ) (c : UInt8) : List UInt8 :=
  let c := (int signed c &&& 0xFF#32).toNat
  [highDigit a c, lowDigit a c]

/-- The byte of two digits. -/
def byte (signed : Bool) (x y : UInt8) : UInt8 :=
  let high := char (digit signed [x] 0 <<< 4)
  char (int signed high ||| digit signed [y] 0 &&& 0xF#32)

/-- The bytes of a string of digits; a last digit alone is followed by a zero. -/
def bytes (signed : Bool) : List UInt8 → List UInt8
  | [] => []
  | [x] => [byte signed x 0]
  | x :: y :: rest => byte signed x y :: bytes signed rest

theorem take_set_set {l : List UInt8} {i : ℕ} (hi : i + 1 < l.length) (x y : UInt8) :
    ((l.set i x).set (i + 1) y).take (i + 2) = l.take i ++ [x, y] := by
  have hlen : i + 1 < ((l.set i x).set (i + 1) y).length := by
    rw [List.length_set, List.length_set]
    exact hi
  rw [List.take_succ_eq_append_getElem hlen, List.take_succ_eq_append_getElem (by omega),
    List.take_set_of_le (by omega),
    List.take_set_of_le (Nat.le_refl i)]
  simp

theorem stream2hexLoop_eq (str : List UInt8) : ∀ (fuel k : ℕ) (hexstr : List UInt8), hexstr.length = str.length * 2 →
    k ≤ str.length → str.length ≤ k + fuel →
    stream2hexLoop signed str a fuel (2 * k) (byteAt signed str k) hexstr =
      hexstr.take (2 * k) ++ (str.drop k).flatMap (digits signed a)
  | 0, k, hexstr, hlen, hk, hfuel => by
    obtain rfl : k = str.length := by omega
    rw [List.drop_length, List.take_of_length_le (by omega), List.flatMap_nil, List.append_nil]
    rfl
  | fuel + 1, k, hexstr, hlen, hk, hfuel => by
    unfold stream2hexLoop
    by_cases hlt : k < str.length
    · have hnext : 2 * k + 2 = 2 * (k + 1) := by omega
      have hrest := stream2hexLoop_eq str fuel (k + 1)
        ((hexstr.set (2 * k) (highDigit a (byteAt signed str k))).set (2 * k + 1) (lowDigit a (byteAt signed str k)))
        (by simpa using hlen) (by omega) (by omega)
      rw [if_pos (by omega), hnext, Nat.mul_div_cancel_left _ (by decide), hrest, ← hnext, take_set_set (by omega),
        List.drop_eq_getElem_cons hlt, List.flatMap_cons, List.append_assoc]
      simp [digits, byteAt, hlt]
    · obtain rfl : k = str.length := by omega
      rw [if_neg (by omega), List.drop_length, List.take_of_length_le (by omega), List.flatMap_nil, List.append_nil]

/-- Each byte becomes its two digits. -/
theorem stream2hex_eq (str hexstr : List UInt8) (capital : Bool) : stream2hex signed str hexstr capital =
    str.flatMap (digits signed (if capital then 0x41 - 1 else 0x61 - 1)) := by
  have h := @stream2hexLoop_eq signed (if capital then 0x41 - 1 else 0x61 - 1) str (str.length * 2) 0
    (resize (str.length * 2) hexstr) (length_resize _ _) (Nat.zero_le _) (by omega)
  unfold stream2hex
  simpa using h

theorem bytes_drop (h : List UInt8) {k : ℕ} (hk : k < h.length) :
    bytes signed (h.drop k) = byte signed (h.getD k 0) (h.getD (k + 1) 0) :: bytes signed (h.drop (k + 2)) := by
  rw [List.drop_eq_getElem_cons hk]
  by_cases hk1 : k + 1 < h.length
  · rw [List.drop_eq_getElem_cons hk1]
    simp [bytes, hk, hk1]
  · rw [List.drop_eq_nil_of_le (by omega), List.drop_eq_nil_of_le (by omega)]
    simp [bytes, hk, hk1]

theorem hex2streamLoop_eq (h : List UInt8) : ∀ (fuel k : ℕ) (str : List UInt8), str.length = (h.length + 1) / 2 →
    k ≤ str.length → str.length ≤ k + fuel →
    hex2streamLoop signed h fuel k (2 * k) str = str.take k ++ bytes signed (h.drop (2 * k))
  | 0, k, str, hlen, hk, hfuel => by
    obtain rfl : k = str.length := by omega
    rw [List.drop_eq_nil_of_le (by omega), List.take_length]
    simp [hex2streamLoop, bytes]
  | fuel + 1, k, str, hlen, hk, hfuel => by
    unfold hex2streamLoop
    by_cases hlt : k < str.length
    · have hnext : 2 * k + 1 + 1 = 2 * (k + 1) := by omega
      have hbyte : byte signed (h.getD (2 * k) 0) (h.getD (2 * k + 1) 0) =
          char (int signed ((str.set k (char (digit signed h (2 * k) <<< 4))).getD k 0) |||
            digit signed h (2 * k + 1) &&& 0xF#32) := by
        simp [byte, digit, hlt]
      have hrest := hex2streamLoop_eq h fuel (k + 1) (str.set k (byte signed (h.getD (2 * k) 0) (h.getD (2 * k + 1) 0)))
        (by simpa using hlen) (by rw [List.length_set]; exact hlt) (by rw [List.length_set]; omega)
      rw [if_pos hlt]
      simp only
      rw [List.set_set, ← hbyte, hnext, hrest, bytes_drop h (show 2 * k < h.length by omega),
        List.take_succ_eq_append_getElem (by simpa using hlt), List.take_set_of_le (Nat.le_refl k)]
      simp [← hnext]
    · obtain rfl : k = str.length := by omega
      rw [if_neg (by omega), List.drop_eq_nil_of_le (by omega), List.take_length]
      simp [bytes]

/-- Each pair of digits becomes its byte. -/
theorem hex2stream_eq (h str : List UInt8) : hex2stream signed h str = bytes signed h := by
  have hloop := @hex2streamLoop_eq signed h ((h.length + 1) / 2) 0 (resize ((h.length + 1) / 2) str)
    (length_resize _ _) (Nat.zero_le _) (by rw [length_resize]; omega)
  unfold hex2stream
  simpa using hloop

end Loops

/-! ## Digits -/

/-- `[0-9a-fA-F]` -/
def IsHexDigit (x : UInt8) : Prop := 0x30 ≤ x ∧ x ≤ 0x39 ∨ 0x61 ≤ x ∧ x ≤ 0x66 ∨ 0x41 ≤ x ∧ x ≤ 0x46

instance (x : UInt8) : Decidable (IsHexDigit x) := inferInstanceAs (Decidable (_ ∨ _))

def lower (x : UInt8) : UInt8 := if 0x41 ≤ x ∧ x ≤ 0x5A then x + 0x20 else x

def upper (x : UInt8) : UInt8 := if 0x61 ≤ x ∧ x ≤ 0x7A then x - 0x20 else x

/-- What holds of the 256 bytes holds of all. -/
theorem all_bytes {P : UInt8 → Prop} (h : ∀ n < 256, P (.ofNat n)) (x : UInt8) : P x := by
  have hx := h x.toNat x.toNat_lt
  rwa [UInt8.ofNat_toNat] at hx

def hexDigits : List UInt8 :=
  (List.range 256).filterMap fun n => if IsHexDigit (.ofNat n) then some (.ofNat n) else none

theorem mem_hexDigits {x : UInt8} (hx : IsHexDigit x) : x ∈ hexDigits := by
  refine List.mem_filterMap.2 ⟨x.toNat, List.mem_range.2 x.toNat_lt, ?_⟩
  rw [UInt8.ofNat_toNat, if_pos hx]

theorem byte_digits (signed : Bool) (capital : Bool) (c : UInt8) :
    bytes signed (digits signed (if capital then 0x41 - 1 else 0x61 - 1) c) = [c] := by
  refine all_bytes (P := fun c => bytes signed (digits signed (if capital then 0x41 - 1 else 0x61 - 1) c) = [c]) ?_ c
  cases signed <;> cases capital <;> decide +kernel

theorem digits_byte (signed : Bool) {x y : UInt8} (hx : IsHexDigit x) (hy : IsHexDigit y) :
    digits signed (0x61 - 1) (byte signed x y) = [lower x, lower y] ∧
      digits signed (0x41 - 1) (byte signed x y) = [upper x, upper y] := by
  have hall : ∀ x ∈ hexDigits, ∀ y ∈ hexDigits, digits signed (0x61 - 1) (byte signed x y) = [lower x, lower y] ∧
      digits signed (0x41 - 1) (byte signed x y) = [upper x, upper y] := by
    cases signed <;> decide +kernel
  exact hall x (mem_hexDigits hx) y (mem_hexDigits hy)

/-! ## Round trips -/

theorem bytes_flatMap (signed capital : Bool) : ∀ s : List UInt8,
    bytes signed (s.flatMap (digits signed (if capital then 0x41 - 1 else 0x61 - 1))) = s
  | [] => rfl
  | c :: s => by
    have hbyte := byte_digits signed capital c
    rw [List.flatMap_cons]
    simp only [digits, bytes, List.cons_append, List.nil_append, List.cons.injEq, and_true] at hbyte ⊢
    exact ⟨hbyte, bytes_flatMap signed capital s⟩

theorem flatMap_bytes (signed : Bool) : ∀ h : List UInt8, h.length % 2 = 0 → (∀ x ∈ h, IsHexDigit x) →
    (bytes signed h).flatMap (digits signed (0x61 - 1)) = h.map lower ∧
      (bytes signed h).flatMap (digits signed (0x41 - 1)) = h.map upper
  | [], _, _ => ⟨rfl, rfl⟩
  | [x], hlen, _ => absurd hlen (by simp)
  | x :: y :: h, hlen, hdigits => by
    have hlen : h.length % 2 = 0 := by
      rw [List.length_cons, List.length_cons] at hlen
      omega
    obtain ⟨hlower, hupper⟩ := digits_byte signed (hdigits x (by simp)) (hdigits y (by simp))
    obtain ⟨hlowers, huppers⟩ := flatMap_bytes signed h hlen fun z hz => hdigits z (by simp [hz])
    constructor
    · rw [bytes, List.flatMap_cons, hlower, hlowers]
      rfl
    · rw [bytes, List.flatMap_cons, hupper, huppers]
      rfl

/-- Hexadecimal coding is a bijection on its image: the bytes of the digits are the bytes again, in both cases of the
letters, and the digits of the bytes of an even number of digits are these digits in the case that is asked for. What
the strings that are written to held before does not matter. -/
theorem hex_bijection (signed : Bool) (hexstr str : List UInt8) :
    (∀ (s : List UInt8) (capital : Bool), hex2stream signed (stream2hex signed s hexstr capital) str = s) ∧
      ∀ h : List UInt8, h.length % 2 = 0 → (∀ x ∈ h, IsHexDigit x) →
        stream2hex signed (hex2stream signed h str) hexstr false = h.map lower ∧
          stream2hex signed (hex2stream signed h str) hexstr true = h.map upper := by
  constructor
  · intro s capital
    rw [stream2hex_eq, hex2stream_eq]
    exact bytes_flatMap signed capital s
  · intro h hlen hdigits
    rw [hex2stream_eq, stream2hex_eq, stream2hex_eq]
    exact flatMap_bytes signed h hlen hdigits

theorem hex_bijection_pair : stream2hex true (hex2stream true [0x46, 0x66] []) [] true = [0x46, 0x46] :=
  ((hex_bijection true [] []).2 [0x46, 0x66] rfl (by simp [IsHexDigit])).2

end HEX

end Undertone
