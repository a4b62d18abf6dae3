import Undertone.Arith
import Undertone.Lib.Loop

/-!
# `Globals.cpp`

The parameters that encoder and decoder share: the lengths of the parts of a transmission, the tokens and their
characters, the pair of tones of each token, the grids of tone frequencies, and the searches for the two largest
values of an array. The globals that the program changes at run time are the record `Globals`.
-/

namespace Undertone

open CountedLoop

namespace Globals

def numFrontDoorTokens : ℕ := 2
def numWordTokens : ℕ := 9
def numCheckTokens : ℕ := 1
def numCorrectionTokens : ℕ := 8
def numMessageTokens : ℕ := numWordTokens + numCheckTokens + numCorrectionTokens
def numTotalTokens : ℕ := numFrontDoorTokens + numMessageTokens
def numTokensAll : ℕ := 32
def numTonesAll : ℕ := 9

def DECODING_MODE_AUDIBLE : ℤ := 0
def DECODING_MODE_NONAUDIBLE : ℤ := 1
def DECODING_MODE_COMPRESSION : ℤ := 2
def DECODING_MODE_CUSTOM : ℤ := 3

/-! ## Tokens and characters -/

def getIdxFromChar : Char → ℤ
  | '0' => 0 | '1' => 1 | '2' => 2 | '3' => 3 | '4' => 4 | '5' => 5 | '6' => 6 | '7' => 7 | '8' => 8 | '9' => 9
  | 'a' | 'A' => 10 | 'b' | 'B' => 11 | 'c' | 'C' => 12 | 'd' | 'D' => 13 | 'e' | 'E' => 14 | 'f' | 'F' => 15
  | 'g' | 'G' => 16 | 'h' | 'H' => 17 | 'i' | 'I' => 18 | 'j' | 'J' => 19 | 'k' | 'K' => 20 | 'l' | 'L' => 21
  | 'm' | 'M' => 22 | 'n' | 'N' => 23 | 'o' | 'O' => 24 | 'p' | 'P' => 25 | 'q' | 'Q' => 26 | 'r' | 'R' => 27
  | 's' | 'S' => 28 | 't' | 'T' => 29 | 'u' | 'U' => 30 | 'v' | 'V' => 31
  | _ => -1

def getCharFromIdx : ℤ → Char
  | 0 => '0' | 1 => '1' | 2 => '2' | 3 => '3' | 4 => '4' | 5 => '5' | 6 => '6' | 7 => '7' | 8 => '8' | 9 => '9'
  | 10 => 'a' | 11 => 'b' | 12 => 'c' | 13 => 'd' | 14 => 'e' | 15 => 'f' | 16 => 'g' | 17 => 'h' | 18 => 'i'
  | 19 => 'j' | 20 => 'k' | 21 => 'l' | 22 => 'm' | 23 => 'n' | 24 => 'o' | 25 => 'p' | 26 => 'q' | 27 => 'r'
  | 28 => 's' | 29 => 't' | 30 => 'u' | 31 => 'v'
  | _ => '0'

/-- `frontDoorTokens[0]` and `frontDoorTokens[1]` -/
def frontDoorTokens : Char × Char := ('1', 'j')

/-- The characters `[0-9a-vA-V]`. -/
def InAlphabet (c : Char) : Prop :=
  '0' ≤ c ∧ c ≤ '9' ∨ 'a' ≤ c ∧ c ≤ 'v' ∨ 'A' ≤ c ∧ c ≤ 'V'

instance (c : Char) : Decidable (InAlphabet c) := inferInstanceAs (Decidable (_ ∨ _))

theorem inAlphabet_cases {P : Char → Prop} (h : ∀ n < 128, InAlphabet (Char.ofNat n) → P (Char.ofNat n)) {c : Char}
    (hc : InAlphabet c) : P c := by
  have hlt : c.toNat < 128 := by
    rcases hc with ⟨-, h⟩ | ⟨-, h⟩ | ⟨-, h⟩ <;> exact lt_of_le_of_lt (UInt32.le_iff_toNat_le.1 h) (by decide)
  have := h c.toNat hlt
  rw [Char.ofNat_toNat] at this
  exact this hc

theorem getCharFromIdx_getIdxFromChar {c : Char} (hc : InAlphabet c) :
    getCharFromIdx (getIdxFromChar c) = c.toLower :=
  inAlphabet_cases (P := fun c => getCharFromIdx (getIdxFromChar c) = c.toLower) (by decide) hc

theorem getIdxFromChar_range {c : Char} (hc : InAlphabet c) : 0 ≤ getIdxFromChar c ∧ getIdxFromChar c < 32 :=
  inAlphabet_cases (P := fun c => 0 ≤ getIdxFromChar c ∧ getIdxFromChar c < 32) (by decide) hc

/-! ## Tokens and tones -/

/-- The tones of the tokens `0..31`. -/
def tonePairs : List (ℤ × ℤ) :=
  [(0, 1), (0, 2), (0, 3), (0, 4), (0, 5), (0, 6), (0, 7), (0, 8),
   (1, 2), (1, 3), (1, 4), (1, 5), (1, 6), (1, 7), (1, 8),
   (2, 3), (2, 4), (2, 5), (2, 6), (2, 7), (2, 8),
   (3, 4), (3, 5), (3, 6), (3, 7), (3, 8),
   (4, 5), (4, 6), (4, 7), (4, 8),
   (5, 6), (5, 7)]

/-- The body of the four functions `getIdxsFromIdx...MultiTone`. -/
def getIdxsFromIdx (idx : ℤ) : ℤ × ℤ := if 0 ≤ idx then tonePairs.getD idx.toNat (0, 1) else (0, 1)

def getIdxsFromIdxAudibleMultiTone : ℤ → ℤ × ℤ := getIdxsFromIdx
def getIdxsFromIdxNonAudibleMultiTone : ℤ → ℤ × ℤ := getIdxsFromIdx
def getIdxsFromIdxCompressionMultiTone : ℤ → ℤ × ℤ := getIdxsFromIdx
def getIdxsFromIdxCustomMultiTone : ℤ → ℤ × ℤ := getIdxsFromIdx

/-- The body of the four functions `getIdxTokenFromIdxsTones...MultiTone`: the token with these two tones, in either
order, and `-1` where no token has them. -/
def getIdxTokenFromIdxsTones (idx1 idx2 : ℤ) : ℤ :=
  if (idx1, idx2) ∈ tonePairs then tonePairs.idxOf (idx1, idx2)
  else if (idx2, idx1) ∈ tonePairs then tonePairs.idxOf (idx2, idx1)
  else -1

def getIdxTokenFromIdxsTonesAudibleMultiTone : ℤ → ℤ → ℤ := getIdxTokenFromIdxsTones
def getIdxTokenFromIdxsTonesNonAudibleMultiTone : ℤ → ℤ → ℤ := getIdxTokenFromIdxsTones
def getIdxTokenFromIdxsTonesCompressionMultiTone : ℤ → ℤ → ℤ := getIdxTokenFromIdxsTones
def getIdxTokenFromIdxsTonesCustomMultiTone : ℤ → ℤ → ℤ := getIdxTokenFromIdxsTones

/-- Some token has these two tones. -/
def IsTokenPair (idx1 idx2 : ℤ) : Prop := (idx1, idx2) ∈ tonePairs ∨ (idx2, idx1) ∈ tonePairs

instance (idx1 idx2 : ℤ) : Decidable (IsTokenPair idx1 idx2) := inferInstanceAs (Decidable (_ ∨ _))

theorem getIdxTokenFromIdxsTones_lt (idx1 idx2 : ℤ) : getIdxTokenFromIdxsTones idx1 idx2 < 32 := by
  unfold getIdxTokenFromIdxsTones
  split
  · rename_i h
    have := List.idxOf_lt_length_of_mem h
    have : tonePairs.length = 32 := rfl
    omega
  · split
    · rename_i h
      have := List.idxOf_lt_length_of_mem h
      have : tonePairs.length = 32 := rfl
      omega
    · decide

theorem getIdxTokenFromIdxsTones_nonneg {idx1 idx2 : ℤ} :
    0 ≤ getIdxTokenFromIdxsTones idx1 idx2 ↔ IsTokenPair idx1 idx2 := by
  unfold getIdxTokenFromIdxsTones IsTokenPair
  split
  · rename_i h
    exact iff_of_true (by omega) (Or.inl h)
  · rename_i h
    split
    · rename_i h'
      exact iff_of_true (by omega) (Or.inr h')
    · rename_i h'
      exact iff_of_false (by decide) (by rintro (h1 | h1); exacts [h h1, h' h1])

/-- No token has a pair of tones in both orders, so the order of the tones does not matter. -/
theorem getIdxTokenFromIdxsTones_comm (idx1 idx2 : ℤ) :
    getIdxTokenFromIdxsTones idx1 idx2 = getIdxTokenFromIdxsTones idx2 idx1 := by
  have hordered : ∀ p ∈ tonePairs, p.swap ∉ tonePairs := by decide
  unfold getIdxTokenFromIdxsTones
  by_cases h : (idx1, idx2) ∈ tonePairs
  · have h' : (idx2, idx1) ∉ tonePairs := hordered _ h
    rw [if_pos h, if_neg h', if_pos h]
  · by_cases h' : (idx2, idx1) ∈ tonePairs
    · rw [if_neg h, if_pos h', if_pos h']
    · rw [if_neg h, if_neg h', if_neg h', if_neg h]

/-! ## Searches -/

section Search

variable {α : Type*}

/-- `maxValueIdx(myArray, size)`, over the comparison `a > b` of the element type. -/
def maxValueIdx (gt : α → α → Bool) (myArray : ℕ → α) (size : ℕ) : ℕ :=
  (forUp 1 size (fun i (idx, maxValue) => if gt (myArray i) maxValue then (i, myArray i) else (idx, maxValue))
    (0, myArray 0)).1

/-- `secondValueIdx(myArray, size)` -/
def secondValueIdx (gt : α → α → Bool) (myArray : ℕ → α) (size : ℕ) : ℕ :=
  let maxValIdx := maxValueIdx gt myArray size
  let (secondidx, secondValue) := if maxValIdx = 0 then (1, myArray 1) else (0, myArray 0)
  (forUp 0 size (fun i (secondidx, secondValue) =>
    if i ≠ maxValIdx then
      if gt (myArray i) secondValue then (i, myArray i) else (secondidx, secondValue)
    else (secondidx, secondValue)) (secondidx, secondValue)).1

theorem maxValueIdx_lt (gt : α → α → Bool) (a : ℕ → α) {size : ℕ} (h : 0 < size) : maxValueIdx gt a size < size := by
  refine forUp_rule (P := fun i (st : ℕ × α) => st.1 < i) (by omega) (by simp) ?_
  rintro i ⟨idx, v⟩ - - hlt
  simp only
  split <;> simp only at hlt ⊢ <;> omega

theorem secondValueIdx_spec (gt : α → α → Bool) (a : ℕ → α) {size : ℕ} (h : 2 ≤ size) :
    secondValueIdx gt a size < size ∧ secondValueIdx gt a size ≠ maxValueIdx gt a size := by
  have hm : maxValueIdx gt a size < size := maxValueIdx_lt gt a (by omega)
  unfold secondValueIdx
  generalize maxValueIdx gt a size = m at hm
  simp only
  refine forUp_rule (P := fun _ (st : ℕ × α) => st.1 < size ∧ st.1 ≠ m) (Nat.zero_le _) ?_ ?_
  · by_cases h0 : m = 0
    · simp only [h0, if_true]
      omega
    · simp only [h0, if_false]
      omega
  · rintro i ⟨idx, v⟩ - hi hP
    simp only at hP ⊢
    split
    · split
      · exact ⟨hi, by assumption⟩
      · exact hP
    · exact hP

/-- Position `i` comes before position `j` when the array is ordered by decreasing value, and by index where the values
are equal. -/
def Leads [LinearOrder α] (a : ℕ → α) (i j : ℕ) : Prop := a j < a i ∨ a i = a j ∧ i < j

theorem Leads.le [LinearOrder α] {a : ℕ → α} {i j : ℕ} (h : Leads a i j) : a j ≤ a i := by
  rcases h with hlt | ⟨heq, -⟩
  · exact hlt.le
  · exact heq.ge

theorem Leads.asymm [LinearOrder α] {a : ℕ → α} {i j : ℕ} (h : Leads a i j) : ¬ Leads a j i := by
  intro h'
  rcases h with hlt | ⟨heq, hij⟩
  · exact absurd h'.le (not_le.2 hlt)
  · rcases h' with hlt | ⟨-, hji⟩
    · exact absurd heq hlt.ne
    · omega

/-- The position found by `maxValueIdx` comes before every other. -/
theorem maxValueIdx_leads [LinearOrder α] {gt : α → α → Bool} (hgt : ∀ x y, gt x y = true ↔ y < x) (a : ℕ → α)
    {size i : ℕ} (hi : i < size) (hne : i ≠ maxValueIdx gt a size) : Leads a (maxValueIdx gt a size) i := by
  have hloop := forUp_rule (a := 1) (b := size) (s := (0, a 0))
    (f := fun i (idx, maxValue) => if gt (a i) maxValue then (i, a i) else (idx, maxValue))
    (P := fun n (st : ℕ × α) => st.2 = a st.1 ∧ st.1 < n ∧ ∀ i < n, i ≠ st.1 → Leads a st.1 i) (by omega)
    ⟨rfl, Nat.zero_lt_one, fun i hi hne => absurd (Nat.lt_one_iff.1 hi) hne⟩ ?_
  · exact hloop.2.2 i hi hne
  · rintro n ⟨idx, v⟩ - - ⟨hv, hidx, hlead⟩
    simp only at hv hidx hlead ⊢
    by_cases hlt : v < a n
    · rw [if_pos ((hgt _ _).2 hlt)]
      refine ⟨rfl, Nat.lt_succ_self n, fun i hi hne => Or.inl (lt_of_le_of_lt ?_ hlt)⟩
      by_cases hi0 : i = idx
      · rw [hi0, hv]
      · rw [hv]
        exact (hlead i (by omega) hi0).le
    · rw [if_neg fun h => hlt ((hgt _ _).1 h)]
      refine ⟨hv, by omega, fun i hi hne => ?_⟩
      rcases Nat.lt_succ_iff_lt_or_eq.1 hi with hin | rfl
      · exact hlead i hin hne
      · rcases (not_lt.1 hlt).lt_or_eq with hlt | heq
        · exact Or.inl (hv ▸ hlt)
        · exact Or.inr ⟨hv ▸ heq.symm, hidx⟩

/-- The value found by `maxValueIdx` is the largest. -/
theorem le_maxValueIdx [LinearOrder α] {gt : α → α → Bool} (hgt : ∀ x y, gt x y = true ↔ y < x) (a : ℕ → α) {size i : ℕ}
    (hi : i < size) : a i ≤ a (maxValueIdx gt a size) := by
  by_cases hne : i = maxValueIdx gt a size
  · exact (congrArg a hne).le
  · exact (maxValueIdx_leads hgt a hi hne).le

/-- The position found by `secondValueIdx` comes before every other one but that of `maxValueIdx`. -/
theorem secondValueIdx_leads [LinearOrder α] {gt : α → α → Bool} (hgt : ∀ x y, gt x y = true ↔ y < x) (a : ℕ → α)
    {size i : ℕ} (hi : i < size) (hmax : i ≠ maxValueIdx gt a size) (hne : i ≠ secondValueIdx gt a size) :
    Leads a (secondValueIdx gt a size) i := by
  unfold secondValueIdx at hne ⊢
  generalize maxValueIdx gt a size = m at hmax hne ⊢
  simp only at hne ⊢
  have hstart : (if m = 0 then (1, a 1) else (0, a 0)).2 = a (if m = 0 then (1, a 1) else (0, a 0)).1 := by
    split <;> rfl
  have hfirst : ∀ k, 0 ≤ k → k ≠ m → (if m = 0 then (1, a 1) else (0, a 0)).1 ≤ k := by
    intro k _ hk
    split <;> omega
  -- the candidate is never behind the next position, so an equal value found there loses
  have hloop := forUp_rule (a := 0) (b := size) (s := if m = 0 then (1, a 1) else (0, a 0))
    (f := fun i (secondidx, secondValue) =>
      if i ≠ m then if gt (a i) secondValue then (i, a i) else (secondidx, secondValue) else (secondidx, secondValue))
    (P := fun n (st : ℕ × α) => st.2 = a st.1 ∧ (∀ k, n ≤ k → k ≠ m → st.1 ≤ k) ∧
      ∀ i < n, i ≠ m → i ≠ st.1 → Leads a st.1 i) (Nat.zero_le _)
    ⟨hstart, hfirst, fun i hi => absurd hi (Nat.not_lt_zero i)⟩ ?_
  · exact hloop.2.2 i hi hmax hne
  · rintro n ⟨idx, v⟩ - - ⟨hv, hidx, hlead⟩
    simp only at hv hidx hlead ⊢
    by_cases hnm : n = m
    · rw [if_neg (not_not.2 hnm)]
      refine ⟨hv, fun k hk => hidx k (by omega), fun i hi him hne => ?_⟩
      exact hlead i (by omega) him hne
    · rw [if_pos hnm]
      by_cases hlt : v < a n
      · rw [if_pos ((hgt _ _).2 hlt)]
        refine ⟨rfl, fun k hk _ => by omega, fun i hi him hne => Or.inl (lt_of_le_of_lt ?_ hlt)⟩
        by_cases hi0 : i = idx
        · rw [hi0, hv]
        · rw [hv]
          exact (hlead i (by omega) him hi0).le
      · rw [if_neg fun h => hlt ((hgt _ _).1 h)]
        refine ⟨hv, fun k hk => hidx k (by omega), fun i hi him hne => ?_⟩
        rcases Nat.lt_succ_iff_lt_or_eq.1 hi with hin | rfl
        · exact hlead i hin him hne
        · have hle := hidx i le_rfl hnm
          rcases (not_lt.1 hlt).lt_or_eq with hlt | heq
          · exact Or.inl (hv ▸ hlt)
          · exact Or.inr ⟨hv ▸ heq.symm, by omega⟩

/-- The value found by `secondValueIdx` is the largest of the others. -/
theorem le_secondValueIdx [LinearOrder α] {gt : α → α → Bool} (hgt : ∀ x y, gt x y = true ↔ y < x) (a : ℕ → α)
    {size i : ℕ} (hi : i < size) (hne : i ≠ maxValueIdx gt a size) : a i ≤ a (secondValueIdx gt a size) := by
  by_cases heq : i = secondValueIdx gt a size
  · exact (congrArg a heq).le
  · exact (secondValueIdx_leads hgt a hi hne heq).le

/-- The searches depend on the values only through their comparisons. -/
theorem maxValueIdx_rank {β : Type*} {gt : α → α → Bool} {gt' : β → β → Bool} {a : ℕ → α} {b : ℕ → β} {size : ℕ}
    (hpos : 0 < size) (h : ∀ i < size, ∀ j < size, gt (a i) (a j) = gt' (b i) (b j)) :
    maxValueIdx gt a size = maxValueIdx gt' b size := by
  obtain ⟨k, -, h1, h2⟩ := forUp_rel (a := 1) (b := size) (s := (0, a 0)) (t := (0, b 0))
    (f := fun i (idx, maxValue) => if gt (a i) maxValue then (i, a i) else (idx, maxValue))
    (g := fun i (idx, maxValue) => if gt' (b i) maxValue then (i, b i) else (idx, maxValue))
    (fun st st' => ∃ k < size, st = (k, a k) ∧ st' = (k, b k)) ⟨0, hpos, rfl, rfl⟩ (by
      rintro i _ _ - hi ⟨k, hk, rfl, rfl⟩
      simp only
      rw [h i hi k hk]
      split
      · exact ⟨i, hi, rfl, rfl⟩
      · exact ⟨k, hk, rfl, rfl⟩)
  exact (congrArg Prod.fst h1).trans (congrArg Prod.fst h2).symm

theorem secondValueIdx_rank {β : Type*} {gt : α → α → Bool} {gt' : β → β → Bool} {a : ℕ → α} {b : ℕ → β} {size : ℕ}
    (hpos : 2 ≤ size) (h : ∀ i < size, ∀ j < size, gt (a i) (a j) = gt' (b i) (b j)) :
    secondValueIdx gt a size = secondValueIdx gt' b size := by
  unfold secondValueIdx
  rw [maxValueIdx_rank (by omega) h]
  generalize maxValueIdx gt' b size = m
  have h0 : ∃ k < size, (if m = 0 then (1, a 1) else (0, a 0)) = (k, a k) ∧
      (if m = 0 then (1, b 1) else (0, b 0)) = (k, b k) := by
    by_cases hm : m = 0
    · exact ⟨1, by omega, if_pos hm, if_pos hm⟩
    · exact ⟨0, by omega, if_neg hm, if_neg hm⟩
  obtain ⟨k, -, h1, h2⟩ := forUp_rel (a := 0) (b := size) (f := fun i (idx, maxValue) =>
      if i ≠ m then if gt (a i) maxValue then (i, a i) else (idx, maxValue) else (idx, maxValue))
    (g := fun i (idx, maxValue) =>
      if i ≠ m then if gt' (b i) maxValue then (i, b i) else (idx, maxValue) else (idx, maxValue))
    (fun st st' => ∃ k < size, st = (k, a k) ∧ st' = (k, b k)) h0 (by
      rintro i _ _ - hi ⟨k, hk, rfl, rfl⟩
      simp only
      rw [h i hi k hk]
      split
      · split
        · exact ⟨i, hi, rfl, rfl⟩
        · exact ⟨k, hk, rfl, rfl⟩
      · exact ⟨k, hk, rfl, rfl⟩)
  exact (congrArg Prod.fst h1).trans (congrArg Prod.fst h2).symm

end Search

end Globals

/-! ## The globals that change -/

structure Globals (F : Type) where
  nBinsOffsetForAudibleMultiTone : ℤ
  freqOffsetForAudibleMultiTone : F
  nBinsOffsetForNonAudibleMultiTone : ℤ
  freqOffsetForNonAudibleMultiTone : F
  nBinsOffsetForCompressionMultiTone : ℤ
  freqOffsetForCompressionMultiTone : F
  nBinsOffsetForCustomMultiTone : ℤ
  freqOffsetForCustomMultiTone : F
  freqBaseForCustomMultiTone : F
  oxysSeparationForCustomMultiTone : ℤ

namespace Globals

variable {F D : Type} [Doubles D] [Floats F D]

/-- The conversion of an `int` to `float`. -/
def ofInt (n : ℤ) : F := Floats.lit n

/-- `(int)(x + .5)`, in `double`. -/
def round (x : F) : ℤ := Doubles.trunc (Floats.toDouble x + Doubles.lit (1 / 2))

def durToken : F := Floats.lit 0.104489796
def two_pi : F := Floats.lit 2 * Floats.lit 3.14159265358979323846

/-- The values before the first call. -/
def initial : Globals F where
  nBinsOffsetForAudibleMultiTone := 12
  freqOffsetForAudibleMultiTone := Floats.lit 258.398442
  nBinsOffsetForNonAudibleMultiTone := 4
  freqOffsetForNonAudibleMultiTone := Floats.lit 86.1328141638
  nBinsOffsetForCompressionMultiTone := 3
  freqOffsetForCompressionMultiTone := Floats.lit 64.5996106228
  nBinsOffsetForCustomMultiTone := 2 + 1
  freqOffsetForCustomMultiTone := Floats.lit 64.5996106228
  freqBaseForCustomMultiTone := Floats.lit 12000
  oxysSeparationForCustomMultiTone := 1

def init (fftsize : ℕ) (g : Globals F) : Globals F :=
  -- hard-coded at 44100, whatever the sampling rate
  let freq2Bin : F := ofInt fftsize / Floats.lit 44100
  { g with
    nBinsOffsetForAudibleMultiTone := 12
    freqOffsetForAudibleMultiTone := ofInt 12 / freq2Bin
    nBinsOffsetForNonAudibleMultiTone := 4
    freqOffsetForNonAudibleMultiTone := ofInt 4 / freq2Bin
    nBinsOffsetForCompressionMultiTone := 3
    freqOffsetForCompressionMultiTone := ofInt 3 / freq2Bin
    nBinsOffsetForCustomMultiTone := 2 + g.oxysSeparationForCustomMultiTone
    freqOffsetForCustomMultiTone := ofInt (2 + g.oxysSeparationForCustomMultiTone) / freq2Bin }

/-! ## Tone frequencies -/

/-- The body of the functions `getToneFromIdx...` and `getFreqFromIdx...`: the first tone around `first` Hz and the
distance of two neighbours around `distance` Hz, both rounded to whole bins. -/
def toneGrid (first distance : F) (idx : ℤ) (samplingRate : F) (windowSize : ℕ) : F :=
  let binToHz := samplingRate / ofInt windowSize
  let firstFreqBin := round (first / binToHz)
  let firstFreq := ofInt firstFreqBin * binToHz
  let tokenDistanceInBins := round (distance / binToHz)
  let tokenDistanceInHz := ofInt tokenDistanceInBins * binToHz
  firstFreq + ofInt idx * tokenDistanceInHz

def getFreqFromIdxAudible : ℤ → F → ℕ → F := toneGrid (Floats.lit 3300) (Floats.lit 210)

def getFreqFromIdxNonAudible : ℤ → F → ℕ → F := toneGrid (Floats.lit 16800) (Floats.lit 155)

def getToneFromIdxAudibleMultiTone : ℤ → F → ℕ → F := toneGrid (Floats.lit 3300) (Floats.lit 750)

def getToneFromIdxNonAudibleMultiTone (g : Globals F) : ℤ → F → ℕ → F :=
  toneGrid (Floats.lit 17800) (g.freqOffsetForNonAudibleMultiTone * Floats.lit 3)

def getToneFromIdxCompressionMultiTone (g : Globals F) : ℤ → F → ℕ → F :=
  toneGrid (Floats.lit 14000) (g.freqOffsetForCompressionMultiTone * Floats.lit 3)

def getToneFromIdxCustomMultiTone (g : Globals F) : ℤ → F → ℕ → F :=
  toneGrid g.freqBaseForCustomMultiTone (g.freqOffsetForCustomMultiTone * Floats.lit 3)

/-- `maxValueIdx` and `secondValueIdx` on `float` arrays compare with `>`. -/
def floatGt (x y : F) : Bool := Floats.lt y x

/-- The overloads on `int` arrays. -/
def intGt (x y : ℤ) : Bool := decide (x > y)

def sum (data : ℕ → F) (size : ℕ) : F := forUp 0 size (fun i sum => sum + data i) (Floats.lit 0)

end Globals

theorem ofInt_eq (n : ℤ) : (Globals.ofInt n : ℝ) = n := by
  show ((n : ℚ) : ℝ) = n
  norm_cast

end Undertone
