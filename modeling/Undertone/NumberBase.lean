import Mathlib.Data.Nat.Digits.Lemmas
import Undertone.Lib.Loop
import Undertone.Server

/-!
# Number bases: `fromDecToBase` and `fromBaseToDec`

The two directions of the conversion use different tables of digits. `fromDecToBase` has 62, of which those from 36 on
repeat the letters from `a`; `fromBaseToDec` reads the first 32. A digit from 32 on is read as a smaller number, never
as a larger one, and by too little to be made up for modulo `2^32`: a number comes back exactly when it has no such
digit (`base_round_trip`).
-/

namespace Undertone

namespace Server

open CountedLoop

/-- `digits` of `fromDecToBase`, with the zero at its end. -/
def baseDigits : List UInt8 :=
  ['0', '1', '2', '3', '4', '5', '6', '7', '8', '9', 'a', 'b', 'c', 'd', 'e', 'f', 'g', 'h', 'i', 'j', 'k', 'l', 'm',
    'n', 'o', 'p', 'q', 'r', 's', 't', 'u', 'v', 'W', 'X', 'Y', 'Z', 'a', 'b', 'c', 'd', 'e', 'f', 'g', 'h', 'i', 'j',
    'k', 'l', 'm', 'n', 'o', 'p', 'q', 'r', 's', 't', 'u', 'v', 'w', 'x', 'y', 'z', '\x00'].map Char.toUInt8

/-- `while (num) { buf[--i] = digits[±(num % rad)]; num /= rad; }`, with the part of `buf` from `i` on. -/
def pushDigits (sign rad : ℤ) : ℕ → ℤ → List UInt8 → List UInt8
  | 0, _, buf => buf
  | i + 1, num, buf =>
    if num ≠ 0 then
      pushDigits sign rad i (num.tdiv rad) (baseDigits.getD (sign * num.tmod rad).toNat 0 :: buf)
    else buf

/-- `fromDecToBase(num, rad)`; `none` is the null pointer. -/
def fromDecToBase (num rad : ℤ) : Option (List UInt8) :=
  -- bounds check for radix
  if rad < 2 ∨ rad > 62 then none
  else if num = 0 then some [Char.toUInt8 '0']
  else if num > 0 then some (pushDigits 1 rad 65 num [])
  else some (Char.toUInt8 '-' :: pushDigits (-1) rad 65 num [])

/-- `fromBaseToDec(number, length, rad)` -/
def fromBaseToDec (number : List UInt8) (length : ℕ) (rad : ℤ) : BitVec 32 :=
  (forDown 0 length (fun i (decimal, factor) =>
    let curVal := BitVec.ofInt 32 (charToVal (number.getD i 0))
    (decimal + factor * curVal, factor * BitVec.ofInt 32 rad)) (0, 1)).1

/-! ## Reading -/

/-- What a string of digits stands for, without wrapping around. -/
def valueOf (rad : ℤ) : List UInt8 → ℤ
  | [] => 0
  | c :: number => charToVal c * rad ^ number.length + valueOf rad number

theorem valueOf_snoc (rad : ℤ) (c : UInt8) : ∀ number : List UInt8,
    valueOf rad (number ++ [c]) = valueOf rad number * rad + charToVal c
  | [] => by simp [valueOf]
  | d :: number => by
    rw [List.cons_append, valueOf, valueOf_snoc rad c number, valueOf, List.length_append, List.length_singleton,
      pow_succ]
    ring

theorem fromBaseToDec_eq (number : List UInt8) (rad : ℤ) :
    fromBaseToDec number number.length rad = BitVec.ofInt 32 (valueOf rad number) := by
  have hloop := forDown_rule (a := 0) (b := number.length) (s := ((0 : BitVec 32), (1 : BitVec 32)))
    (f := fun i (decimal, factor) =>
      let curVal := BitVec.ofInt 32 (charToVal (number.getD i 0))
      (decimal + factor * curVal, factor * BitVec.ofInt 32 rad))
    (P := fun i st => st = (BitVec.ofInt 32 (valueOf rad (number.drop i)), BitVec.ofInt 32 (rad ^ (number.length - i))))
    (Nat.zero_le _) ?_ ?_
  · exact congrArg Prod.fst hloop
  · simp [valueOf]
  · rintro i _ - hi rfl
    have hlen : number.length - i = number.length - (i + 1) + 1 := by omega
    have hget : number.getD i 0 = number[i] := by simp [hi]
    simp only
    rw [List.drop_eq_getElem_cons hi, valueOf, List.length_drop, hlen, pow_succ, BitVec.ofInt_add, BitVec.ofInt_mul,
      BitVec.ofInt_mul, hget, BitVec.add_comm, BitVec.mul_comm (BitVec.ofInt 32 (charToVal _))]

/-- Zeros in front change nothing. -/
theorem valueOf_zeros (rad : ℤ) (number : List UInt8) : ∀ k,
    valueOf rad (List.replicate k (Char.toUInt8 '0') ++ number) = valueOf rad number
  | 0 => rfl
  | k + 1 => by
    have hzero : charToVal (Char.toUInt8 '0') = 0 := by decide
    rw [List.replicate_succ, List.cons_append, valueOf, valueOf_zeros rad number k, hzero, zero_mul, zero_add]

/-! ## Writing -/

/-- What the digit `d` is read as. -/
def readDigit (d : ℕ) : ℤ := charToVal (baseDigits.getD d 0)

/-- The two tables agree on the digits up to 31 and no further. -/
theorem readDigit_spec {d : ℕ} (hd : d < 62) :
    (readDigit d = d ∧ d < 32) ∨ (32 ≤ d ∧ readDigit d < d ∧ -1 ≤ readDigit d) := by
  have hall : ∀ d < 62, (readDigit d = d ∧ d < 32) ∨ (32 ≤ d ∧ readDigit d < d ∧ -1 ≤ readDigit d) := by decide
  exact hall d hd

theorem pushDigits_eq {rad : ℕ} (hrad : 2 ≤ rad) : ∀ (i num : ℕ) (buf : List UInt8), num < 2 ^ i →
    pushDigits 1 rad i num buf = (Nat.digits rad num).reverse.map (fun d => baseDigits.getD d 0) ++ buf
  | 0, num, buf, hnum => by
    obtain rfl : num = 0 := by omega
    simp [pushDigits]
  | i + 1, num, buf, hnum => by
    unfold pushDigits
    by_cases h0 : num = 0
    · simp [h0]
    · have hdiv : num / rad < 2 ^ i := by
        refine Nat.div_lt_of_lt_mul (hnum.trans_le ?_)
        rw [pow_succ, mul_comm]
        exact Nat.mul_le_mul_right _ hrad
      have hquot : (num : ℤ).tdiv rad = (num / rad : ℕ) := rfl
      have hrem : (1 * (num : ℤ).tmod rad).toNat = num % rad := by
        rw [one_mul]
        rfl
      rw [if_pos (by exact_mod_cast h0), hquot, hrem, pushDigits_eq hrad i _ _ hdiv,
        Nat.digits_def' (show 1 < rad by omega) (Nat.pos_of_ne_zero h0)]
      simp

/-- The value of digits that are written with one table and read with the other: at most the number, and by at most a
part in 32 below zero. -/
theorem value_bounds {rad : ℕ} (hrad : 0 < rad) : ∀ ds : List ℕ, (∀ d ∈ ds, d < 62) →
    valueOf rad (ds.reverse.map fun d => baseDigits.getD d 0) ≤ Nat.ofDigits rad ds ∧
      -((Nat.ofDigits rad ds : ℕ) : ℤ) ≤ 32 * valueOf rad (ds.reverse.map fun d => baseDigits.getD d 0) ∧
      (valueOf rad (ds.reverse.map fun d => baseDigits.getD d 0) = Nat.ofDigits rad ds ↔ ∀ d ∈ ds, d < 32)
  | [], _ => by simp [valueOf, Nat.ofDigits]
  | d :: ds, hds => by
    obtain ⟨hle, hge, heq⟩ := value_bounds hrad ds fun e he => hds e (List.mem_cons_of_mem d he)
    rw [List.reverse_cons, List.map_append, List.map_singleton, valueOf_snoc, List.forall_mem_cons, ← heq,
      Nat.ofDigits_cons]
    change _ * (rad : ℤ) + readDigit d ≤ _ ∧ _ ≤ 32 * (_ * (rad : ℤ) + readDigit d) ∧
      (_ * (rad : ℤ) + readDigit d = _ ↔ _)
    generalize valueOf rad (ds.reverse.map fun d => baseDigits.getD d 0) = value at hle hge
    generalize Nat.ofDigits rad ds = n at hle hge
    have hrad : (0 : ℤ) < rad := by exact_mod_cast hrad
    have hprod : 0 ≤ rad * ((n : ℤ) - value) := mul_nonneg hrad.le (by omega)
    have hprod' : 0 ≤ rad * ((n : ℤ) + 32 * value) := mul_nonneg hrad.le (by omega)
    have hread : readDigit d ≤ d ∧ -(d : ℤ) ≤ 32 * readDigit d ∧ (readDigit d = d ↔ d < 32) := by
      rcases readDigit_spec (hds d List.mem_cons_self) with ⟨hd, hlt⟩ | ⟨hge, hlt, hneg⟩
      · omega
      · omega
    obtain ⟨hdle, hdge, hdeq⟩ := hread
    push_cast
    refine ⟨by linarith, by linarith, ?_⟩
    rw [← hdeq]
    constructor
    · intro h
      -- the digit and the rest are each at most what they should be
      have hzero : rad * ((n : ℤ) - value) = 0 := by linarith
      have hvalue : (n : ℤ) - value = 0 := (mul_eq_zero.1 hzero).resolve_left hrad.ne'
      exact ⟨by linarith, by omega⟩
    · rintro ⟨hd, hvalue⟩
      rw [hd, hvalue]
      ring

/-! ## There and back -/

/-- The number comes back, also with zeros in front of its digits. -/
def RoundTrips (num rad : ℤ) : Prop :=
  ∃ number, fromDecToBase num rad = some number ∧ ∀ k,
    (fromBaseToDec (List.replicate k (Char.toUInt8 '0') ++ number)
      (List.replicate k (Char.toUInt8 '0') ++ number).length rad).toInt = num

theorem fromDecToBase_eq {rad num : ℕ} (hrad : 2 ≤ rad) (hrad' : rad ≤ 62) (hnum : num < 2 ^ 31) :
    ∃ number, fromDecToBase num rad = some number ∧
      valueOf rad number = valueOf rad ((Nat.digits rad num).reverse.map fun d => baseDigits.getD d 0) := by
  unfold fromDecToBase
  rw [if_neg (by omega)]
  by_cases h0 : num = 0
  · subst h0
    refine ⟨_, if_pos rfl, ?_⟩
    have hzero : charToVal (Char.toUInt8 '0') = 0 := by decide
    simp [valueOf, hzero]
  · rw [if_neg (by exact_mod_cast h0), if_pos (by omega), pushDigits_eq hrad 65 num [] (by omega), List.append_nil]
    exact ⟨_, rfl, rfl⟩

/-- A number comes back from its digits in base `rad` exactly when these are all below 32. -/
theorem base_round_trip {rad num : ℕ} (hrad : 2 ≤ rad) (hrad' : rad ≤ 62) (hnum : num < 2 ^ 31) :
    RoundTrips num rad ↔ ∀ d ∈ Nat.digits rad num, d < 32 := by
  obtain ⟨number, hnumber, hvalue⟩ := fromDecToBase_eq hrad hrad' hnum
  have hds : ∀ d ∈ Nat.digits rad num, d < 62 := fun d hd => (Nat.digits_lt_base (by omega) hd).trans_le hrad'
  obtain ⟨hle, hge, heq⟩ := value_bounds (show 0 < rad by omega) _ hds
  rw [← hvalue, Nat.ofDigits_digits] at hle hge heq
  rw [← heq]
  have hread : ∀ k, fromBaseToDec (List.replicate k (Char.toUInt8 '0') ++ number)
      (List.replicate k (Char.toUInt8 '0') ++ number).length rad = BitVec.ofInt 32 (valueOf rad number) := by
    intro k
    rw [fromBaseToDec_eq, valueOf_zeros]
  constructor
  · rintro ⟨number', hnumber', hback⟩
    obtain rfl : number = number' := Option.some.inj (hnumber.symm.trans hnumber')
    have hback := hback 0
    rw [hread 0, BitVec.toInt_ofInt] at hback
    have hmod : valueOf rad number % 2 ^ 32 = num % 2 ^ 32 := by
      rw [← hback]
      exact Int.bmod_emod.symm
    omega
  · intro hvalue
    refine ⟨number, hnumber, fun k => ?_⟩
    rw [hread k, hvalue, BitVec.toInt_ofInt]
    exact Int.bmod_eq_of_le (by omega) (by omega)

/-- The largest `int` in base 32 and the number 32 in base 33. -/
theorem base_round_trip_32 : RoundTrips 2147483647 32 :=
  (@base_round_trip 32 2147483647 (by decide) (by decide) (by decide)).2 (by simp)

/-- The digit 32 is written as a letter that has no value. -/
theorem base_33_lost : ¬ RoundTrips 32 33 := by
  rintro ⟨number, hnumber, hback⟩
  obtain rfl : [Char.toUInt8 'W'] = number := Option.some.inj ((by decide : some _ = _).trans hnumber)
  have hback := hback 0
  rw [fromBaseToDec_eq] at hback
  exact absurd hback (by decide)

end Server

end Undertone
