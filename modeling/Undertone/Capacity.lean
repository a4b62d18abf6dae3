import Undertone.Audio

/-!
# What the buffers of an encoder hold

A call of `EncodeDataToAudioBuffer` checks neither the two sizes nor the characters. All its accesses are in range
exactly when the string has nine to twenty characters of the alphabet and, where a melody is added, the melody fits the
ten seconds of audio (`encode_in_bounds`): a shorter string is summed past its end for the check digit, a longer one is
written past the end of the message, and any other character is looked up at index `-1`.
-/

namespace Undertone

open CountedLoop BoundedArray Globals Encoder

namespace Globals

/-- The characters of the alphabet are those with an index. -/
theorem inAlphabet_iff {c : Char} : InAlphabet c ↔ getIdxFromChar c ≠ -1 := by
  constructor
  · intro hc
    have := (getIdxFromChar_range hc).1
    omega
  · unfold getIdxFromChar
    split
    all_goals first
      | exact fun _ => by decide
      | exact fun h => absurd rfl h

end Globals

namespace AudioEncoder

open ReedSolomon (Sym Codec)

variable {F D : Type} [Doubles D] [Floats F D]

/-! ## Symbols -/

section Symbols

variable {e : AudioEncoder F} {stringToEncode : List Char}

omit [Doubles D] [Floats F D] in
theorem sym_getIdxFromChar {c : Char} : Sym (getIdxFromChar c) ↔ InAlphabet c := by
  constructor
  · intro h
    refine inAlphabet_iff.2 fun h' => ?_
    have := h.1
    omega
  · exact getIdxFromChar_range

theorem userDigits_length (stringToEncode : List Char) :
    (userDigits stringToEncode).length = stringToEncode.length + 2 := by
  rw [userDigits, List.length_append, List.length_map]
  exact Nat.add_comm _ _

/-- The sum of nine symbols, modulo the number of tokens, is a symbol. -/
theorem checkDigit_sym {digits : List ℤ} (h : ∀ x ∈ digits, Sym x) : Sym (checkDigit digits) := by
  have hsum : 0 ≤ forUp numFrontDoorTokens (numFrontDoorTokens + numWordTokens)
      (fun i sum => sum + digits.getD i 0) (0 : ℤ) := by
    refine forUp_rule (fun _ sum => 0 ≤ sum) (by decide) le_rfl fun i sum _ _ hsum => ?_
    have hx : 0 ≤ digits.getD i 0 := by
      by_cases hi : i < digits.length
      · rw [List.getD_eq_getElem _ _ hi]
        exact (h _ (List.getElem_mem hi)).1
      · rw [List.getD_eq_default _ _ (not_lt.1 hi)]
    omega
  exact ⟨Int.tmod_nonneg _ hsum, Int.tmod_lt_of_pos _ (by decide)⟩

omit [Doubles D] [Floats F D] in
/-- The loop over the digits that are summed. -/
theorem sumDigits_eq (digits : List ℤ) (h : numFrontDoorTokens + numWordTokens ≤ digits.length) :
    forUpM numFrontDoorTokens (numFrontDoorTokens + numWordTokens) (fun i sum => do return sum + (← digits[i]?))
      (0 : ℤ) =
      some (forUp numFrontDoorTokens (numFrontDoorTokens + numWordTokens) (fun i sum => sum + digits.getD i 0) 0) := by
  refine forUpM_rule (fun _ _ => True) trivial fun i sum _ hi _ => ⟨?_, trivial⟩
  have hlt : i < digits.length := by omega
  rw [List.getElem?_eq_getElem hlt, List.getD_eq_getElem _ _ hlt]
  rfl

/-- The symbols are made in the arrays exactly for nine to twenty characters of the alphabet. -/
theorem transmit_eq (h9 : 9 ≤ stringToEncode.length) (h20 : stringToEncode.length ≤ 20)
    (hc : ∀ c ∈ stringToEncode, InAlphabet c) : transmit stringToEncode e =
      some (e.mReedSolomon.send (userDigits stringToEncode ++ [checkDigit (userDigits stringToEncode)])) := by
  have hlen := userDigits_length stringToEncode
  have hsym : ∀ x ∈ userDigits stringToEncode, Sym x := by
    intro x hx
    rcases List.mem_append.1 hx with hdoor | huser
    · have hdoors : ∀ x ∈ [getIdxFromChar frontDoorTokens.1, getIdxFromChar frontDoorTokens.2], Sym x := by decide
      exact hdoors x hdoor
    · obtain ⟨c, hmem, rfl⟩ := List.mem_map.1 huser
      exact sym_getIdxFromChar.2 (hc c hmem)
  unfold transmit
  have hsum := sumDigits_eq (userDigits stringToEncode) (by
    rw [hlen]
    exact Nat.add_le_add_right h9 2)
  simp only at hsum ⊢
  rw [hsum, Option.bind_eq_bind, Option.bind_some]
  refine Codec.sendChecked_eq ?_ ?_ e.mReedSolomon
  · rw [List.length_append, hlen]
    exact Nat.succ_le_succ (Nat.add_le_add_right h20 2)
  · intro x hx
    rcases List.mem_append.1 hx with huser | hcheck
    · exact hsym x huser
    · rw [List.mem_singleton.1 hcheck]
      exact checkDigit_sym hsym

theorem transmit_inv {p : List ℤ × Codec} (h : transmit stringToEncode e = some p) :
    9 ≤ stringToEncode.length ∧ stringToEncode.length ≤ 20 ∧ ∀ c ∈ stringToEncode, InAlphabet c := by
  have hlen := userDigits_length stringToEncode
  obtain ⟨sum, hsum, hsend⟩ := Option.bind_eq_some_iff.1 h
  have h9 : 9 ≤ stringToEncode.length := by
    obtain ⟨t, t', hround⟩ := forUpM_rounds hsum (i := 10) (by decide) (by decide)
    obtain ⟨x, hx, -⟩ := Option.bind_eq_some_iff.1 hround
    have := (List.getElem?_eq_some_iff.1 hx).1
    omega
  have hfits : (userDigits stringToEncode ++ [sum.tmod numTokensAll]).length ≤ ReedSolomon.kk ∧
      ∀ x ∈ userDigits stringToEncode ++ [sum.tmod numTokensAll], Sym x := by
    by_contra hnot
    rw [Codec.sendChecked_none hnot] at hsend
    exact absurd hsend (by simp)
  rw [List.length_append, hlen] at hfits
  refine ⟨h9, Nat.le_of_add_le_add_right (b := 3) hfits.1, fun c hc => ?_⟩
  have hmem : getIdxFromChar c ∈ userDigits stringToEncode :=
    List.mem_append_right _ (List.mem_map_of_mem hc)
  exact sym_getIdxFromChar.1 (hfits.2 _ (List.mem_append_left _ hmem))

end Symbols

/-! ## Samples -/

section Samples

variable [Synthesis F D] {e : AudioEncoder F} {st : Filling F D}

/-- The samples of a symbol are written in range where they end in range. -/
theorem writeDigit_fits (g : Globals F) (digit : ℤ) {i : ℕ}
    (h : (i + 1) * e.samplesPerDigit ≤ e.mNumMaxSamplesEncodedString) (st : Filling F D) :
    ∃ st', writeDigit g e digit i st = some st' ∧ st'.numSamples = st.numSamples + e.samplesPerDigit := by
  obtain ⟨⟨phase1, phase2, audio⟩, hloop, -⟩ := forUpM_total (a := 0) (b := e.samplesPerDigit)
    (g := fun t (st : D × D × (ℕ → F)) => do
      let phase1 := advance e.mSampleRate (mCurrentFreqs g e.toEncoder digit i).1 st.1
      let phase2 := advance e.mSampleRate (mCurrentFreqs g e.toEncoder digit i).2 st.2.1
      let audio ← put e.mNumMaxSamplesEncodedString st.2.2 (t + i * e.samplesPerDigit : ℕ)
        (sample e i t (getLoudnessFromIdx e.cls digit) phase1 phase2)
      return (phase1, phase2, audio)) (s := (st.phase1, st.phase2, st.audio)) (fun _ _ => True) (Nat.zero_le _) trivial
    (fun t st _ ht _ => by
      have hin : t + i * e.samplesPerDigit < e.mNumMaxSamplesEncodedString := by
        rw [Nat.succ_mul] at h
        omega
      simp only
      rw [put_cast hin]
      exact ⟨_, rfl, trivial⟩)
  exact ⟨_, congrArg (Option.bind · _) hloop, rfl⟩

theorem writeDigits_fits (g : Globals F) {digits : List ℤ}
    (h : digits.length * e.samplesPerDigit ≤ e.mNumMaxSamplesEncodedString) (audio : ℕ → F) :
    ∃ st : Filling F D, writeDigits g e digits audio = some st ∧ st.numSamples = digits.length * e.samplesPerDigit := by
  refine forUpM_total (fun i (st : Filling F D) => st.numSamples = i * e.samplesPerDigit) (Nat.zero_le _)
    (Nat.zero_mul _).symm fun i st _ hi hnum => ?_
  have hfit : (i + 1) * e.samplesPerDigit ≤ e.mNumMaxSamplesEncodedString :=
    (Nat.mul_le_mul_right _ hi).trans h
  obtain ⟨st', hst', hnum'⟩ := writeDigit_fits g digits[i] hfit st
  refine ⟨st', ?_, ?_⟩
  · rw [List.getElem?_eq_getElem hi]
    exact hst'
  · rw [hnum', hnum, Nat.succ_mul]

/-- Symbols with an outcome end in range. -/
theorem writeDigits_inv {g : Globals F} {digits : List ℤ} {audio : ℕ → F} (h : writeDigits g e digits audio = some st) :
    st.numSamples ≤ e.mNumMaxSamplesEncodedString := by
  have hloop := forUpM_inv (fun i (st : Filling F D) => st.numSamples = i * e.samplesPerDigit ∧
      st.numSamples ≤ e.mNumMaxSamplesEncodedString) (Nat.zero_le _) ⟨(Nat.zero_mul _).symm, Nat.zero_le _⟩
    (fun i st st' _ hi hst hround => by
      obtain ⟨digit, -, hwrite⟩ := Option.bind_eq_some_iff.1 hround
      obtain ⟨⟨phase1, phase2, audio'⟩, hdigit, hdone⟩ := Option.bind_eq_some_iff.1 hwrite
      obtain rfl := Option.some.inj hdone
      refine ⟨?_, ?_⟩
      · simp only
        rw [hst.1, Nat.succ_mul]
      · simp only
        rcases Nat.eq_zero_or_pos e.samplesPerDigit with hzero | hpos
        · rw [hzero]
          exact hst.2
        · obtain ⟨t, t', hlast⟩ := forUpM_rounds hdigit (Nat.zero_le (e.samplesPerDigit - 1)) (by omega)
          obtain ⟨audio'', hput, -⟩ := Option.bind_eq_some_iff.1 hlast
          have hin := put_inv hput
          rw [hst.1]
          omega) h
  exact hloop.2

omit [Doubles D] [Floats F D] [Synthesis F D] in
theorem get_put_cast {n i : ℕ} (h : i < n) (f : F → F) (a : ℕ → F) :
    (do let x ← get n a i; put n a i (f x)) = some (Function.update a i (f (a i))) := by
  rw [get_cast h, Option.bind_eq_bind, Option.bind_some, put_cast h]

omit [Synthesis F D] in
theorem mixDigit_fits (mix : ℕ → F → F) {i : ℕ}
    (h : (i + 1) * e.samplesPerDigit ≤ e.mNumMaxSamplesEncodedString) (audio : ℕ → F) :
    ∃ audio', mixDigit e mix i audio = some audio' := by
  obtain ⟨audio', hloop, -⟩ := forUpM_total (fun _ (_ : ℕ → F) => True) (Nat.zero_le e.samplesPerDigit) trivial
    (s := audio) fun t audio _ ht _ => by
      have hin : t + i * e.samplesPerDigit < e.mNumMaxSamplesEncodedString := by
        rw [Nat.succ_mul] at h
        omega
      exact ⟨_, get_put_cast hin (mix t) audio, trivial⟩
  exact ⟨audio', hloop⟩

omit [Synthesis F D] in
/-- A sound over a symbol that ends out of range is not mixed in range. -/
theorem mixDigit_inv {mix : ℕ → F → F} {i : ℕ} {audio audio' : ℕ → F} (hpos : 0 < e.samplesPerDigit)
    (h : mixDigit e mix i audio = some audio') : (i + 1) * e.samplesPerDigit ≤ e.mNumMaxSamplesEncodedString := by
  obtain ⟨t, t', hround⟩ := forUpM_rounds h (Nat.zero_le (e.samplesPerDigit - 1)) (by omega)
  obtain ⟨x, hx, hput⟩ := Option.bind_eq_some_iff.1 hround
  have hin := put_inv hput
  rw [Nat.succ_mul]
  omega

theorem addSounds_fits (w : Surroundings F) {type : ℤ} {melodyString : List Char} {digits : List ℤ}
    (hnum : st.numSamples = digits.length * e.samplesPerDigit)
    (hfit : st.numSamples ≤ e.mNumMaxSamplesEncodedString)
    (hmelody : type = 2 → melodyString.length * e.samplesPerDigit ≤ e.mNumMaxSamplesEncodedString) :
    ∃ st', addSounds w type melodyString digits e st = some st' ∧ st'.numSamples ≤ e.mNumMaxSamplesEncodedString := by
  unfold addSounds
  by_cases h1 : type = 1
  · obtain ⟨audio, haudio, -⟩ := forUpM_total (fun _ (_ : ℕ → F) => True) (Nat.zero_le digits.length) trivial
      (s := st.audio) fun i audio _ hi _ => by
        obtain ⟨audio', h⟩ := mixDigit_fits (e := e) (i := i)
          (roboticSound e w.synthVolume (w.rand (2 * i)) (w.rand (2 * i + 1)))
          ((Nat.mul_le_mul_right _ hi).trans (hnum ▸ hfit)) audio
        exact ⟨audio', h, trivial⟩
    rw [if_pos h1]
    exact ⟨_, congrArg (Option.bind · _) haudio, hfit⟩
  · rw [if_neg h1]
    by_cases h2 : type = 2
    · have hlen : (melodyString.map getIdxFromChar).length = melodyString.length := List.length_map _
      obtain ⟨audio, haudio, -⟩ := forUpM_total (g := fun i audio => do
          let digit ← (melodyString.map getIdxFromChar)[i]?
          mixDigit e (melodyNote e digit) i audio) (fun _ (_ : ℕ → F) => True)
        (Nat.zero_le (melodyString.map getIdxFromChar).length) trivial (s := st.audio) fun i audio _ hi _ => by
          rw [List.getElem?_eq_getElem hi]
          obtain ⟨audio', h⟩ := mixDigit_fits (e := e) (i := i) (melodyNote e _)
            ((Nat.mul_le_mul_right _ (hlen ▸ hi)).trans (hmelody h2)) audio
          exact ⟨audio', h, trivial⟩
      rw [if_pos h2]
      refine ⟨_, congrArg (Option.bind · _) haudio, ?_⟩
      simp only [hlen]
      split
      · exact hmelody h2
      · exact hfit
    · rw [if_neg h2]
      exact ⟨st, rfl, hfit⟩

theorem addSounds_inv {w : Surroundings F} {type : ℤ} {melodyString : List Char} {digits : List ℤ} {st' : Filling F D}
    (hpos : 0 < e.samplesPerDigit) (h : addSounds w type melodyString digits e st = some st') (h2 : type = 2) :
    melodyString.length * e.samplesPerDigit ≤ e.mNumMaxSamplesEncodedString := by
  unfold addSounds at h
  rw [if_neg (by omega), if_pos h2] at h
  obtain ⟨audio, haudio, -⟩ := Option.bind_eq_some_iff.1 h
  by_cases hempty : melodyString.length = 0
  · rw [hempty, Nat.zero_mul]
    exact Nat.zero_le _
  · obtain ⟨t, t', hround⟩ := forUpM_rounds haudio (Nat.zero_le (melodyString.length - 1)) (by
      rw [List.length_map]
      omega)
    obtain ⟨digit, -, hmix⟩ := Option.bind_eq_some_iff.1 hround
    have := mixDigit_inv hpos hmix
    rwa [Nat.sub_add_cancel (by omega)] at this

theorem addSounds_le {w : Surroundings F} {type : ℤ} {melodyString : List Char} {digits : List ℤ} {st' : Filling F D}
    (hfit : st.numSamples ≤ e.mNumMaxSamplesEncodedString)
    (h : addSounds w type melodyString digits e st = some st') : st'.numSamples ≤ e.mNumMaxSamplesEncodedString := by
  have hmelody : type = 2 → melodyString.length * e.samplesPerDigit ≤ e.mNumMaxSamplesEncodedString := by
    intro h2
    rcases Nat.eq_zero_or_pos e.samplesPerDigit with hzero | hpos
    · rw [hzero, Nat.mul_zero]
      exact Nat.zero_le _
    · exact addSounds_inv hpos h h2
  unfold addSounds at h
  split at h
  · obtain ⟨audio, -, hdone⟩ := Option.bind_eq_some_iff.1 h
    obtain rfl := Option.some.inj hdone
    exact hfit
  · split at h
    · rename_i h2
      obtain ⟨audio, -, hdone⟩ := Option.bind_eq_some_iff.1 h
      obtain rfl := Option.some.inj hdone
      simp only [List.length_map]
      split
      · exact hmelody h2
      · exact hfit
    · obtain rfl := Option.some.inj h
      exact hfit

omit [Synthesis F D] in
theorem addSignature_fits (hfit : st.numSamples ≤ e.mNumMaxSamplesEncodedString) :
    ∃ st', addSignature e st = some st' ∧ st'.numSamples = st.numSamples := by
  have hsize : ∀ {n m : ℕ}, (if n > m then m else n) ≤ m ∧ (if n > m then m else n) ≤ n := by
    intro n m
    split <;> omega
  obtain ⟨audio, haudio, -⟩ := forUpM_total (g := fun i audio => do
      let x ← get e.mNumMaxSamplesEncodedString audio i
      let s ← e.mAudioSignature[i]?
      put e.mNumMaxSamplesEncodedString audio i (clip (x + s))) (fun _ (_ : ℕ → F) => True)
    (Nat.zero_le (if e.mAudioSignature.length > st.numSamples then st.numSamples else e.mAudioSignature.length)) trivial
    (s := st.audio) fun i audio _ hi _ => by
      have hin : i < e.mNumMaxSamplesEncodedString := lt_of_lt_of_le hi (hsize.1.trans hfit)
      rw [get_cast hin, Option.bind_eq_bind, Option.bind_some, List.getElem?_eq_getElem (lt_of_lt_of_le hi hsize.2),
        Option.bind_some, put_cast hin]
      exact ⟨_, rfl, trivial⟩
  exact ⟨_, congrArg (Option.bind · _) haudio, rfl⟩

/-! ## Calls -/

theorem encode_inv {w : Surroundings F} {stringToEncode : List Char} {type : ℤ} {melodyString : List Char} {n : ℕ}
    {e' : AudioEncoder F} (hp : EncodeDataToAudioBuffer w stringToEncode type melodyString e = some (n, e')) :
    (9 ≤ stringToEncode.length ∧ stringToEncode.length ≤ 20 ∧ ∀ c ∈ stringToEncode, InAlphabet c) ∧
      ∃ digits audio, ∃ st st' st'' : Filling F D, writeDigits w.globals e digits audio = some st ∧
        addSounds w type melodyString digits e st = some st' ∧ addSignature e st' = some st'' ∧
        n = st''.numSamples ∧ ∃ codec, e' = { e with
          mReedSolomon := codec
          mAudioBufferEncodedString := st''.audio
          mNumSamplesEncodedString := st''.numSamples
          mReadIndexEncodedAudioBuffer := 0 } := by
  obtain ⟨⟨digits, codec⟩, htransmit, hrest⟩ := Option.bind_eq_some_iff.1 hp
  obtain ⟨st, hst, hrest⟩ := Option.bind_eq_some_iff.1 hrest
  obtain ⟨st', hst', hrest⟩ := Option.bind_eq_some_iff.1 hrest
  obtain ⟨st'', hst'', hrest⟩ := Option.bind_eq_some_iff.1 hrest
  obtain ⟨rfl, rfl⟩ := Prod.mk.inj (Option.some.inj hrest)
  exact ⟨transmit_inv htransmit, digits, _, st, st', st'', hst, hst', hst'', rfl, codec, rfl⟩

/-- A call with an outcome leaves a transmission that fits the buffer, to be read from its beginning. -/
theorem encode_fits {w : Surroundings F} {stringToEncode : List Char} {type : ℤ} {melodyString : List Char} {n : ℕ}
    {e' : AudioEncoder F} (hp : EncodeDataToAudioBuffer w stringToEncode type melodyString e = some (n, e')) :
    e'.mNumSamplesEncodedString ≤ e'.mNumMaxSamplesEncodedString ∧ e'.mReadIndexEncodedAudioBuffer = 0 ∧
      e'.mBufferSize = e.mBufferSize := by
  obtain ⟨-, digits, audio, st, st', st'', hst, hst', hst'', rfl, codec, rfl⟩ := encode_inv hp
  refine ⟨?_, rfl, rfl⟩
  have hdigits := writeDigits_inv hst
  have hsounds := addSounds_le hdigits hst'
  obtain ⟨audio', -, hdone⟩ := Option.bind_eq_some_iff.1 hst''
  obtain rfl := Option.some.inj hdone
  exact hsounds

/-- A call is in range exactly for such a string and melody, where a code word of full length fits the buffer. -/
theorem encode_isSome_iff (w : Surroundings F) (hpos : 0 < e.samplesPerDigit)
    (hword : 31 * e.samplesPerDigit ≤ e.mNumMaxSamplesEncodedString) (stringToEncode : List Char) (type : ℤ)
    (melodyString : List Char) : (EncodeDataToAudioBuffer w stringToEncode type melodyString e).isSome ↔
      (9 ≤ stringToEncode.length ∧ stringToEncode.length ≤ 20 ∧ ∀ c ∈ stringToEncode, InAlphabet c) ∧
        (type = 2 → melodyString.length * e.samplesPerDigit ≤ e.mNumMaxSamplesEncodedString) := by
  constructor
  · intro h
    obtain ⟨⟨n, e'⟩, hp⟩ := Option.isSome_iff_exists.1 h
    obtain ⟨hstring, digits, audio, st, st', st'', -, hsounds, -⟩ := encode_inv hp
    exact ⟨hstring, addSounds_inv hpos hsounds⟩
  · rintro ⟨⟨h9, h20, hc⟩, hmelody⟩
    have hlen : (e.mReedSolomon.send (userDigits stringToEncode ++ [checkDigit (userDigits stringToEncode)])).1.length =
        stringToEncode.length + 11 := by
      refine (ReedSolomon.getCode_length _).trans ?_
      show (userDigits stringToEncode ++ [checkDigit (userDigits stringToEncode)]).length + 8 = _
      rw [List.length_append, userDigits_length]
      rfl
    have htransmit := transmit_eq (e := e) h9 h20 hc
    generalize e.mReedSolomon.send (userDigits stringToEncode ++ [checkDigit (userDigits stringToEncode)]) = sent
      at hlen htransmit
    obtain ⟨digits, codec⟩ := sent
    have hfit : digits.length * e.samplesPerDigit ≤ e.mNumMaxSamplesEncodedString := by
      refine (Nat.mul_le_mul_right _ ?_).trans hword
      simp only at hlen
      omega
    obtain ⟨st, hst, hnum⟩ := writeDigits_fits w.globals hfit
      (fun i => if i < e.mNumMaxSamplesEncodedString then Floats.lit 0 else e.mAudioBufferEncodedString i)
    obtain ⟨st', hst', hfit'⟩ := addSounds_fits w hnum (hnum ▸ hfit) hmelody
    obtain ⟨st'', hst'', -⟩ := addSignature_fits hfit'
    unfold EncodeDataToAudioBuffer
    simp only [Option.bind_eq_bind]
    rw [htransmit, Option.bind_some, hst, Option.bind_some, hst', Option.bind_some, hst'']
    rfl

end Samples

/-! ## At 44100 Hz -/

theorem samplesPerDigit_44100 {e : AudioEncoder ℝ} (he : e.mSampleRate = 44100) : e.samplesPerDigit = 4608 := by
  have hint : int ((44100 : ℝ) * durToken) = (4608 : ℕ) := by
    refine truncate_eq ?_ ?_
    · show ((4608 : ℕ) : ℝ) ≤ 44100 * durToken
      rw [durToken, lit_eq]
      norm_num
    · show (44100 : ℝ) * durToken < (4608 : ℕ) + 1
      rw [durToken, lit_eq]
      norm_num
  rw [samplesPerDigit, he, hint]
  rfl

theorem maxSamples_44100 {e : AudioEncoder ℝ} (he : e.mSampleRate = 44100) :
    e.mNumMaxSamplesEncodedString = 441000 := by
  have hint : int ((Floats.lit 10 : ℝ) * 44100) = (441000 : ℕ) := by
    refine truncate_eq ?_ ?_
    · show ((441000 : ℕ) : ℝ) ≤ Floats.lit 10 * 44100
      rw [lit_eq]
      norm_num
    · show (Floats.lit 10 : ℝ) * 44100 < (441000 : ℕ) + 1
      rw [lit_eq]
      norm_num
  rw [mNumMaxSamplesEncodedString, he, hint]
  rfl

/-- At 44100 Hz a call stays in its buffers exactly if it encodes nine to twenty characters of the alphabet, and adds no
melody of more than 95 characters. -/
theorem encode_in_bounds (w : Surroundings ℝ) (e : AudioEncoder ℝ) (he : e.mSampleRate = 44100)
    (stringToEncode : List Char) (type : ℤ) (melodyString : List Char) :
    (EncodeDataToAudioBuffer w stringToEncode type melodyString e).isSome ↔
      (9 ≤ stringToEncode.length ∧ stringToEncode.length ≤ 20 ∧ ∀ c ∈ stringToEncode, InAlphabet c) ∧
        (type = 2 → melodyString.length ≤ 95) := by
  have hn := samplesPerDigit_44100 he
  have hmax := maxSamples_44100 he
  rw [encode_isSome_iff w (by omega) (by omega), hn, hmax]
  refine and_congr_right fun _ => imp_congr_right fun _ => ?_
  omega

/-- The audible encoder, new, between calls of a program that changed no global. -/
noncomputable def audible (buffsize : ℕ) : AudioEncoder ℝ := new default default .AudibleMultiTone 44100 buffsize 2048

noncomputable def untouched : Surroundings ℝ := ⟨initial, 0, fun _ => 0⟩

theorem word_inAlphabet : ∀ c ∈ ['h', 'e', 'l', 'l', 'o', '0', '0', '0', '0'], InAlphabet c := by
  simp [InAlphabet]

theorem encode_in_bounds_word : (EncodeDataToAudioBuffer untouched ['h', 'e', 'l', 'l', 'o', '0', '0', '0', '0'] 0 []
    (audible 1024)).isSome :=
  (encode_in_bounds untouched (audible 1024) rfl _ 0 []).2
    ⟨⟨by decide, by decide, word_inAlphabet⟩, by decide⟩

/-- Eight characters: the check digit is summed past the end of `digits`. -/
theorem short_out_of_bounds : EncodeDataToAudioBuffer untouched ['h', 'e', 'l', 'l', 'o', '0', '0', '0'] 0 []
    (audible 1024) = none := by
  rw [← Option.not_isSome_iff_eq_none]
  intro h
  obtain ⟨⟨n, e'⟩, hp⟩ := Option.isSome_iff_exists.1 h
  exact absurd (encode_inv hp).1.1 (by decide)

end AudioEncoder

end Undertone
