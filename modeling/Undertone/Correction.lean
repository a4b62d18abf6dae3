import Undertone.Decoder.Defs
import Undertone.Encoder
import Undertone.ReedSolomon.Code

/-!
# `GetDecodedData`: correction and check token

What one call of `GetDecodedData` does (`getDecodedData_some`, `getDecodedData_none`), and the two ends of it: a word
that differs from a transmitted one in at most four symbols gives the payload back (`getDecodedData_corrects`), and a
word that the codec gives up on passes as good exactly when its own symbols agree with its own check token
(`uncorrectable_negative_iff`).
-/

namespace Undertone

open CountedLoop Globals ReedSolomon

namespace Decoder

variable {F D : Type} [Floats F D]

/-! ## One call -/

theorem getMessage_length (rs : ReedSolomon) : rs.GetMessage.length = rs.msg_len := by simp [GetMessage]

/-- The value returned: the number of characters, negative when the check token does not agree. -/
def verdict (message : List ℤ) : ℤ := if checkToken message = message.getD 11 0 then 9 else -9

theorem countEqual_eq (message : List ℤ) (orig : ℕ → ℤ) :
    countEqual message orig = ((Finset.range 12).filter fun i => message.getD i 0 = orig i).card := by
  rw [countEqual, forUp_count (Nat.zero_le _), Nat.Ico_zero_eq_range]
  rfl

/-- A call that reads nothing past the end of `mDecodedValues`. -/
theorem getDecodedData_some {d : Decoder F} {c : Codec} (hlen : 12 ≤ d.core.mDecodedValues.length)
    (hc : d.mReedSolomon.receive 12 d.core.mDecodedValues = some c) :
    ∃ d' : Decoder F, d.GetDecodedData =
        some (verdict c.1.GetMessage, decodedString c.1.GetMessage ++ ['\x00'], d') ∧
      d'.cls = d.cls ∧ d'.frames = d.frames ∧ d'.core = { d.core with mDecodedValues := [] } ∧
      (d.cls.isMultiTone = true → d'.mConfidenceCorrection =
        ofInt (12 - mismatches 12 c.1.GetMessage d.core.mDecodedValues : ℤ) / ofInt 12) := by
  have hmsg : c.1.GetMessage.length = 12 := by rw [getMessage_length, Codec.receive_msg_len hc]
  unfold GetDecodedData
  rw [if_neg (by simp only [show sizeTokensNoCorrection = 12 from rfl]; omega),
    show mMessageLength = 12 from rfl, hc]
  simp only [Option.map_some]
  refine ⟨_, congrArg some (Prod.ext ?_ rfl), rfl, rfl, rfl, fun hm => ?_⟩
  · rw [hmsg, verdict, show numFrontDoorTokens + numWordTokens = 11 from rfl]
    by_cases hv : checkToken c.1.GetMessage = c.1.GetMessage.getD 11 0
    · rw [if_pos hv, if_neg (not_not.2 hv)]
      rfl
    · rw [if_neg hv, if_pos hv]
      rfl
  · simp only [hm, if_true, countEqual_eq, mismatches]
    rw [forUp_fill 0 sizeTokensNoCorrection (fun i => d.core.mDecodedValues.getD i 0)]
    have hcount := Finset.card_filter_add_card_filter_not (s := Finset.range 12)
      (p := fun i => c.1.GetMessage.getD i 0 = d.core.mDecodedValues.getD i 0)
    rw [Finset.card_range] at hcount
    have hsame : (Finset.range 12).filter (fun i => c.1.GetMessage.getD i 0 =
          if 0 ≤ i ∧ i < sizeTokensNoCorrection then d.core.mDecodedValues.getD i 0 else d.mDecodedValuesOrig i) =
        (Finset.range 12).filter fun i => c.1.GetMessage.getD i 0 = d.core.mDecodedValues.getD i 0 := by
      refine Finset.filter_congr fun i hi => ?_
      rw [if_pos ⟨Nat.zero_le _, Finset.mem_range.1 hi⟩]
    rw [hsame]
    simp only [ne_eq]
    congr 2
    omega

/-- A call that reads past the end of `mDecodedValues`. -/
theorem getDecodedData_none {d : Decoder F} (h : d.core.mDecodedValues.length < 20) :
    d.GetDecodedData = none := by
  unfold GetDecodedData
  simp only [show sizeTokensNoCorrection = 12 from rfl, show mMessageLength = 12 from rfl]
  split
  · rfl
  · have hset : SetCode d.core.mDecodedValues { d.mReedSolomon.1 with msg_len := 12 } = none := by
      unfold SetCode
      rw [if_pos ⟨by simp only [kk_eq]; omega, (by decide : 12 < kk)⟩,
        if_pos (by simp only [show nn - kk = 8 from rfl]; omega)]
    rcases hr : d.mReedSolomon.receive 12 d.core.mDecodedValues with _ | c
    · rfl
    · obtain ⟨r, h1, -⟩ := Codec.receive_inv hr
      rw [hset] at h1
      exact absurd h1 (by simp)

/-- What a call with an answer has read, returned and changed. -/
theorem getDecodedData_inv {d d' : Decoder F} {ret : ℤ} {s : List Char} (h : d.GetDecodedData = some (ret, s, d')) :
    20 ≤ d.core.mDecodedValues.length ∧ (ret = 9 ∨ ret = -9) ∧ d'.cls = d.cls ∧ d'.frames = d.frames ∧
      d'.core = { d.core with mDecodedValues := [] } := by
  have hlen : 20 ≤ d.core.mDecodedValues.length := by
    by_contra hlt
    rw [getDecodedData_none (by omega)] at h
    exact absurd h (by simp)
  obtain ⟨r, hr⟩ : ∃ r, SetCode d.core.mDecodedValues { d.mReedSolomon.1 with msg_len := 12 } = some r := by
    unfold SetCode
    split
    · exact ⟨_, if_neg (by simp only [show nn - kk = 8 from rfl]; omega)⟩
    · exact ⟨_, rfl⟩
  obtain ⟨c, hc, -⟩ := Codec.receive_some hr
  obtain ⟨e, he, hcls, hframes, hcore, -⟩ := getDecodedData_some (by omega) hc
  obtain ⟨rfl, -, rfl⟩ : verdict c.1.GetMessage = ret ∧ _ = s ∧ e = d' := by
    simpa only [he, Option.some.injEq, Prod.mk.injEq] using h
  refine ⟨hlen, ?_, hcls, hframes, hcore⟩
  unfold verdict
  split
  · exact Or.inl rfl
  · exact Or.inr rfl

/-! ## Correction -/

/-- What the encoder sends for a payload of nine characters: the message is in front, and its check token agrees. -/
theorem digits_spec (e : Encoder F) {payload : List Char} (hlen : payload.length = 9)
    (halpha : ∀ c ∈ payload, InAlphabet c) :
    ∃ (message T : List ℤ) (e' : Encoder F), e.digits payload = some (T, e') ∧ T.length = 20 ∧ (∀ x ∈ T, Sym x) ∧
      T = GetCode (Encode (SetMessage message e.mReedSolomon.1)) ∧ message.length = 12 ∧ (∀ x ∈ message, Sym x) ∧
      (∀ i < 12, T.getD i 0 = message.getD i 0) ∧ checkToken message = message.getD 11 0 ∧
      decodedString message = payload.map Char.toLower := by
  have hu : (Encoder.userDigits payload).length = 11 := by simp [Encoder.userDigits, hlen]
  set message := Encoder.userDigits payload ++ [Encoder.checkDigit (Encoder.userDigits payload)] with hm
  have hmlen : message.length = 12 := by simp [hm, hu]
  have husym : ∀ x ∈ Encoder.userDigits payload, Sym x := by
    intro x hx
    simp only [Encoder.userDigits, List.cons_append, List.nil_append, List.mem_cons, List.mem_map] at hx
    rcases hx with rfl | rfl | ⟨c, hc, rfl⟩
    · exact ⟨by decide, by decide⟩
    · exact ⟨by decide, by decide⟩
    · exact getIdxFromChar_range (halpha c hc)
  have hcheck : Sym (Encoder.checkDigit (Encoder.userDigits payload)) := by
    have h0 : 0 ≤ forUp numFrontDoorTokens (numFrontDoorTokens + numWordTokens)
        (fun i sum => sum + (Encoder.userDigits payload).getD i 0) 0 :=
      forUp_rule (P := fun _ s => 0 ≤ s) (by decide) le_rfl fun i s _ _ hs => by
        have := (getD_sym husym i).1
        omega
    exact ⟨Int.tmod_nonneg _ h0, Int.tmod_lt_of_pos _ (by decide)⟩
  have hmsym : ∀ x ∈ message, Sym x := by
    intro x hx
    rcases List.mem_append.1 (hm ▸ hx) with h | h
    · exact husym x h
    · rw [List.mem_singleton.1 h]
      exact hcheck
  set T := GetCode (Encode (SetMessage message e.mReedSolomon.1)) with hT
  have hl : (Encode (SetMessage message e.mReedSolomon.1)).msg_len = 12 := hmlen
  have hTlen : T.length = 20 := by rw [hT, getCode_length, hl]
  have hfront : ∀ i < 12, T.getD i 0 = message.getD i 0 := fun i hi => by
    rw [hT, getCode_getD _ (by omega), if_pos (by omega)]
    exact setMessage_data message _ (hi.trans (by decide))
  have hlow : ∀ i < 11, message.getD i 0 = (Encoder.userDigits payload).getD i 0 := fun i hi => by
    rw [hm, List.getD_append _ _ _ _ (by omega)]
  refine ⟨message, T, _, if_neg (by rw [hu]; decide), hTlen, ?_, hT, hmlen, hmsym, hfront, ?_, ?_⟩
  · refine getCode_sym (setMessage_keeps message _ e.mReedSolomon.2) (hmlen.trans_le (by decide)) fun i hi => ?_
    rw [setMessage_data message _ hi]
    exact getD_sym hmsym i
  · have h11 : message.getD 11 0 = Encoder.checkDigit (Encoder.userDigits payload) := by
      rw [hm, List.getD_append_right _ _ _ _ (by omega), hu]
      rfl
    rw [h11, checkToken, Encoder.checkDigit]
    congr 1
    exact forUp_congr (fun i s _ hi => by rw [hlow i hi]) 0
  · refine List.ext_getElem (by simp [decodedString, hmlen, hlen, numFrontDoorTokens]) fun i h1 h2 => ?_
    have hi : i < 9 := by simpa [hlen] using h2
    have hi' : i < (payload.map getIdxFromChar).length := by simpa using h2
    simp only [decodedString, List.getElem_map, List.getElem_range]
    rw [hlow _ (show i + numFrontDoorTokens < 11 by simp only [numFrontDoorTokens]; omega), Encoder.userDigits,
      List.getD_append_right _ _ _ _ (Nat.le_add_left 2 i),
      show i + numFrontDoorTokens - [getIdxFromChar frontDoorTokens.1, getIdxFromChar frontDoorTokens.2].length = i
        from Nat.add_sub_cancel i 2, List.getD_eq_getElem _ _ hi', List.getElem_map]
    exact getCharFromIdx_getIdxFromChar (halpha _ (List.getElem_mem _))

/-- What the encoder sends is the code word that begins with the symbols of the payload. -/
theorem digits_unique (e : Encoder F) {payload : List Char} {T : List ℤ} (hlen : T.length = 20) (hsym : ∀ x ∈ T, Sym x)
    (hmsg : T.take 12 = Encoder.userDigits payload ++ [Encoder.checkDigit (Encoder.userDigits payload)])
    (hcode : IsCodeword (received 12 T)) : ∃ e' : Encoder F, e.digits payload = some (T, e') := by
  have hmlen : (Encoder.userDigits payload ++ [Encoder.checkDigit (Encoder.userDigits payload)]).length = 12 := by
    rw [← hmsg, List.length_take, hlen]
    decide
  have hmsym : ∀ x ∈ Encoder.userDigits payload ++ [Encoder.checkDigit (Encoder.userDigits payload)], Sym x := by
    rw [← hmsg]
    exact fun x hx => hsym x (List.mem_of_mem_take hx)
  have hfront : ∀ i < 12, T.getD i 0 = (T.take 12).getD i 0 := by
    intro i hi
    rw [List.getD_eq_getElem?_getD, List.getD_eq_getElem?_getD, List.getElem?_take_of_lt hi]
  rw [hmsg] at hfront
  have hsend := getCode_unique e.mReedSolomon.2 (by rw [hmlen]; decide) hmsym (by rw [hmlen, hlen]) hsym
    (by rw [hmlen]; exact hfront) (by rw [hmlen]; exact hcode)
  have huser : (Encoder.userDigits payload).length = 11 := by
    rw [List.length_append, List.length_singleton] at hmlen
    omega
  unfold Encoder.digits
  rw [if_neg (by rw [huser]; decide)]
  exact ⟨_, congrArg (fun code => some (code, _)) hsend⟩

/-- The end-to-end result: whatever is received in place of at most four of the twenty symbols, the payload comes
back, and the confidence counts the symbols of the message that arrived unchanged. -/
theorem getDecodedData_corrects (e : Encoder F) {payload : List Char} (hlen : payload.length = 9)
    (halpha : ∀ c ∈ payload, InAlphabet c) :
    ∃ (T : List ℤ) (e' : Encoder F), e.digits payload = some (T, e') ∧ T.length = 20 ∧ (∀ x ∈ T, 0 ≤ x ∧ x ≤ 31) ∧
      ∀ d : Decoder F, d.core.mDecodedValues.length = 20 → (∀ x ∈ d.core.mDecodedValues, 0 ≤ x ∧ x ≤ 31) →
        mismatches 20 d.core.mDecodedValues T ≤ 4 →
        ∃ d' : Decoder F, d.GetDecodedData = some (9, payload.map Char.toLower ++ ['\x00'], d') ∧
          d'.core.mDecodedValues = [] ∧
          (d.cls.isMultiTone = true →
            d'.mConfidenceCorrection = ofInt (12 - mismatches 12 d.core.mDecodedValues T : ℤ) / ofInt 12) := by
  obtain ⟨message, T, e', hT, hTlen, hTsym, hcode, hmlen, hmsym, hfront, hcheck, hstr⟩ := digits_spec e hlen halpha
  refine ⟨T, e', hT, hTlen, fun x hx => ⟨(hTsym x hx).1, Int.le_of_lt_add_one (hTsym x hx).2⟩,
    fun d hRlen hRsym herr => ?_⟩
  obtain ⟨r, hset, -, hmsg⟩ := code_corrects e.mReedSolomon.1 { d.mReedSolomon.1 with msg_len := 12 }
    e.mReedSolomon.2 d.mReedSolomon.2 hmlen.symm (by rw [hmlen]; decide) hmsym (by rw [hRlen, hmlen])
    (fun x hx => ⟨(hRsym x hx).1, by have := (hRsym x hx).2; omega⟩) (by rw [← hcode, hmlen]; exact herr)
  obtain ⟨c, hc, hcr⟩ := Codec.receive_some hset
  obtain ⟨d', hd, -, -, hcore, hconf⟩ := getDecodedData_some (by omega) hc
  have hmessage : c.1.GetMessage = message := by rw [hcr, hmsg]
  rw [hmessage] at hd hconf
  refine ⟨d', ?_, by rw [hcore], fun hm => ?_⟩
  · rw [hd, hstr, verdict, if_pos hcheck]
  · rw [hconf hm]
    have hsame : mismatches 12 message d.core.mDecodedValues = mismatches 12 d.core.mDecodedValues T := by
      refine congrArg Finset.card (Finset.filter_congr fun i hi => ?_)
      rw [hfront i (Finset.mem_range.1 hi), ne_comm]
    rw [hsame]

/-- One symbol of `hello0123` is received as `0`. -/
theorem getDecodedData_corrects_hello :
    ∃ (T : List ℤ) (d d' : Decoder ℝ), d.cls = .NonAudibleMultiTone ∧ d.core.mDecodedValues = T.set 4 0 ∧
      ((Encoder.new default .NonAudibleMultiTone 44100 2048 : Encoder ℝ).digits "hello0123".toList).map (·.1) =
        some T ∧
      d.GetDecodedData = some (9, "hello0123".toList ++ ['\x00'], d') := by
  obtain ⟨T, e', hT, hlen, hsym, h⟩ := getDecodedData_corrects
    (Encoder.new default .NonAudibleMultiTone 44100 2048 : Encoder ℝ)
    (show "hello0123".toList.length = 9 by decide) (by simp [InAlphabet])
  have hsub : ((Finset.range 20).filter fun i => (T.set 4 0).getD i 0 ≠ T.getD i 0) ⊆ {4} := fun i hi => by
    by_contra h4
    have h4 : 4 ≠ i := fun h => h4 (Finset.mem_singleton.2 h.symm)
    refine (Finset.mem_filter.1 hi).2 ?_
    rw [List.getD_eq_getElem?_getD, List.getElem?_set_ne h4, List.getD_eq_getElem?_getD]
  obtain ⟨d', hd, -⟩ := h
    { (Decoder.new default default .NonAudibleMultiTone initial 44100 2048 : Decoder ℝ) with
      core := { (default : Core ℝ) with mDecodedValues := T.set 4 0 } }
    (by simp [hlen])
    (fun x hx => by
      rcases List.mem_or_eq_of_mem_set hx with hx | rfl
      · exact hsym x hx
      · decide)
    ((Finset.card_le_card hsub).trans (by decide))
  exact ⟨T, _, d', rfl, rfl, by rw [hT]; rfl, hd⟩

/-! ## Words that the codec gives up on -/

theorem checkToken_eq {message : List ℤ} (h : ∀ i, 0 ≤ message.getD i 0) :
    checkToken message = (∑ i ∈ Finset.Ico 2 11, message.getD i 0) % 32 := by
  have hsum : forUp 2 11 (fun i t => t + message.getD i 0) (0 : ℤ) = ∑ i ∈ Finset.Ico 2 11, message.getD i 0 := by
    rw [forUp_add (by decide) fun i => message.getD i 0, zero_add]
  rw [checkToken, show numFrontDoorTokens + numWordTokens = 11 from rfl, show numFrontDoorTokens = 2 from rfl, hsum]
  exact Int.tmod_eq_emod_of_nonneg (Finset.sum_nonneg fun i _ => h i)

/-- The message that comes out is the one that came in. -/
theorem uncorrectable_message (rs : ReedSolomon) {r : ReedSolomon} (hc : Constructed rs) (hm : rs.msg_len = 12)
    {code : List ℤ}
    (hlen : code.length = 20) (hsym : ∀ x ∈ code, Sym x) (hset : SetCode code rs = some r) (hu : Uncorrectable r) :
    GetMessage (Decode r) = code.take 12 := by
  obtain ⟨r0, h0, hkeep, hrecd⟩ := setCode_spec rs code (by rw [hlen]; decide) (by omega)
  obtain rfl : r0 = r := Option.some.inj (h0.symm.trans hset)
  obtain ⟨r', hkeep', hrecd', hdec⟩ := decode_uncorrectable hu
  have hw : Received r0 (received 12 code) :=
    ⟨fun j _ => received_sym hsym 12 j, fun j hj => by rw [hrecd j hj, hm, log, log, hkeep.index_of]⟩
  have hlen12 : (code.take 12).length = 12 := by simp [hlen]
  refine getMessage_eq ?_ fun i hi => ?_
  · rw [(decode_keeps r0).msg_len, hkeep.msg_len, hm, hlen12]
  · have hi : i < 12 := hlen12 ▸ hi
    rw [hdec, (hw.congr hrecd' hkeep'.index_of).toPolynomial (hkeep'.constructed (hkeep.constructed hc)).tables
      (show 8 + i < 31 by omega), received, if_neg (by omega), if_pos (by omega), Nat.add_sub_cancel_left,
      List.getD_eq_getElem?_getD, List.getD_eq_getElem?_getD, List.getElem?_take_of_lt hi]

/-- A word that cannot be corrected is reported as wrong exactly when its payload symbols do not sum up to its check
symbol. -/
theorem uncorrectable_negative_iff {d : Decoder F} {r : ReedSolomon} (hlen : d.core.mDecodedValues.length = 20)
    (hsym : ∀ x ∈ d.core.mDecodedValues, 0 ≤ x ∧ x ≤ 31)
    (hset : SetCode d.core.mDecodedValues { d.mReedSolomon.1 with msg_len := 12 } = some r) (hu : Uncorrectable r) :
    ∃ ret s d', d.GetDecodedData = some (ret, s, d') ∧
      (ret < 0 ↔ (∑ i ∈ Finset.Ico 2 11, d.core.mDecodedValues.getD i 0) % 32 ≠ d.core.mDecodedValues.getD 11 0) := by
  have hsym' : ∀ x ∈ d.core.mDecodedValues, Sym x := fun x hx => ⟨(hsym x hx).1, by have := (hsym x hx).2; omega⟩
  have hmsg := uncorrectable_message { d.mReedSolomon.1 with msg_len := 12 } d.mReedSolomon.2 rfl hlen hsym'
    hset hu
  obtain ⟨c, hc, hcr⟩ := Codec.receive_some hset
  obtain ⟨d', hd, -⟩ := getDecodedData_some (by omega) hc
  rw [hcr, hmsg] at hd
  refine ⟨_, _, d', hd, ?_⟩
  have htake : ∀ i < 12, (d.core.mDecodedValues.take 12).getD i 0 = d.core.mDecodedValues.getD i 0 := fun i hi => by
    rw [List.getD_eq_getElem?_getD, List.getD_eq_getElem?_getD, List.getElem?_take_of_lt hi]
  have hsum : ∑ i ∈ Finset.Ico 2 11, (d.core.mDecodedValues.take 12).getD i 0 =
      ∑ i ∈ Finset.Ico 2 11, d.core.mDecodedValues.getD i 0 :=
    Finset.sum_congr rfl fun i hi => htake i (by have := (Finset.mem_Ico.1 hi).2; omega)
  rw [verdict, checkToken_eq fun i => (getD_sym (fun x hx => hsym' x (List.mem_of_mem_take hx)) i).1, hsum,
    htake 11 (by decide)]
  by_cases h : (∑ i ∈ Finset.Ico 2 11, d.core.mDecodedValues.getD i 0) % 32 = d.core.mDecodedValues.getD 11 0
  · rw [if_pos h]
    exact iff_of_false (by decide) (fun hne => hne h)
  · rw [if_neg h]
    exact iff_of_true (by decide) h

/-- The word sent for `000000000` with seven parities received wrong. -/
def wrongParities : List ℤ := [1, 19, 0, 0, 0, 0, 0, 0, 0, 0, 0, 0, 4, 31, 19, 19, 18, 21, 9, 10]

/-- The logarithms of `wrongParities` in the order of `recd`. -/
def wrongParitiesIdx (j : ℕ) : ℤ := [2, 15, 17, 17, 30, 22, 29, 6, 0, 17].getD j (-1)

/-- The codec of any decoder gives up on it: the first six syndromes vanish, the seventh does not. -/
theorem wrongParities_uncorrectable (c : Codec) :
    ∃ r, SetCode wrongParities { c.1 with msg_len := 12 } = some r ∧ Uncorrectable r := by
  obtain ⟨r, hset, hkeep, hrecd⟩ := setCode_spec { c.1 with msg_len := 12 } wrongParities (by decide) rfl
  have ht := (hkeep.constructed c.2).tables
  have hidx : ∀ j < 31, Idx (wrongParitiesIdx j) := by decide
  have hword : ∀ j < 31, Sym (ofLogs wrongParitiesIdx j) ∧ received 12 wrongParities j = ofLogs wrongParitiesIdx j := by
    decide +kernel
  have hr : Received r (ofLogs wrongParitiesIdx) := ⟨fun j hj => (hword j hj).1, fun j hj => by
    rw [hrecd j hj, log, ← hkeep.index_of]
    exact congrArg r.log (hword j hj).2⟩
  have hsyn : ∀ m, r.syndrome m = 0 ↔ tableSyndrome wrongParitiesIdx m = 0 := fun m =>
    (hr.syndrome_eq_zero ht m).trans (valueAt_ofLogs hidx m)
  have hzero : ∀ m < 7, m ≠ 0 → tableSyndrome wrongParitiesIdx m = 0 := by decide +kernel
  have hlast : tableSyndrome wrongParitiesIdx 7 ≠ 0 := by decide +kernel
  refine ⟨r, hset, .late ht (fun i => (hr.syndrome ht i).1) (m := 7) (by decide) (by decide) (fun m h1 h7 => ?_)
    fun h => ?_⟩
  · exact (hsyn m).2 (hzero m h7 (by omega))
  · exact hlast ((hsyn 7).1 h)

/-- A decoder that has received `wrongParities`. -/
noncomputable def gotWrongParities : Decoder ℝ :=
  { (Decoder.new default default .NonAudibleMultiTone initial 44100 2048 : Decoder ℝ) with
    core := { (default : Core ℝ) with mDecodedValues := wrongParities } }

/-- The word comes out as if it were right. -/
theorem uncorrectable_positive :
    gotWrongParities.core.mDecodedValues = wrongParities ∧
    (∃ r, SetCode wrongParities { gotWrongParities.mReedSolomon.1 with msg_len := 12 } = some r ∧ Uncorrectable r) ∧
      ∃ s d', gotWrongParities.GetDecodedData = some (9, s, d') := by
  obtain ⟨r, hset, hu⟩ := wrongParities_uncorrectable gotWrongParities.mReedSolomon
  have hmsg := uncorrectable_message { gotWrongParities.mReedSolomon.1 with msg_len := 12 }
    gotWrongParities.mReedSolomon.2 rfl (show wrongParities.length = 20 from rfl) (by decide) hset hu
  obtain ⟨c, hc, hcr⟩ := Codec.receive_some hset
  obtain ⟨d', hd', -⟩ := getDecodedData_some (d := gotWrongParities) (by decide) hc
  rw [hcr, hmsg, show verdict (wrongParities.take 12) = 9 by decide +kernel] at hd'
  exact ⟨rfl, ⟨r, hset, hu⟩, _, d', hd'⟩

theorem uncorrectable_negative_iff_wrongParities :
    ∃ ret s d', gotWrongParities.GetDecodedData = some (ret, s, d') ∧ ¬ ret < 0 := by
  obtain ⟨r, hset, hu⟩ := wrongParities_uncorrectable gotWrongParities.mReedSolomon
  obtain ⟨ret, s, d', hd, hret⟩ := uncorrectable_negative_iff (d := gotWrongParities) (by decide) (by decide) hset hu
  exact ⟨ret, s, d', hd, fun h => hret.1 h (by decide)⟩

end Decoder

end Undertone
