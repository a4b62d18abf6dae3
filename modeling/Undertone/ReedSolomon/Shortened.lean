import Undertone.Lib.Run
import Undertone.ReedSolomon.Code

/-!
# The shortened code

A message of fewer than 23 symbols is padded with zeros, and the padding is not sent. `Decode` looks for errors in all
31 places: a correction may fall into the padding, and does exactly when the nearest code word is not zero there
(`padding_zero_iff`). `SetCode` compares the length of the whole word with `kk`, so the round trip of a message ends at
14 symbols (`roundtrip_iff`). Nothing that earlier calls left in an object reaches a later result (`reused_fresh`).
-/

namespace Undertone

open CountedLoop Polynomial

namespace ReedSolomon

/-- `SetCode` puts the word into the order of `recd`, with zeros in the padding. -/
theorem setCode_received (rs : ReedSolomon) {code : List ℤ} (hlen : code.length < kk)
    (hmsg : code.length = rs.msg_len + 8) (hsym : ∀ x ∈ code, Sym x) :
    ∃ r, SetCode code rs = some r ∧ Keeps rs r ∧ Received r (received rs.msg_len code) := by
  obtain ⟨r, hset, hkeep, hrecd⟩ := setCode_spec rs code hlen hmsg
  refine ⟨r, hset, hkeep, fun j _ => received_sym hsym _ j, fun j hj => ?_⟩
  rw [hrecd j hj, log, log, hkeep.index_of]

/-! ## Corrections in the padding -/

section Padding

variable {rs : ReedSolomon} {w : ℕ → ℤ}

/-- What `Decode` returns is a code word near the received word, or the received word with no code word near it. -/
theorem decode_outcome (h : Constructed rs) (hw : Received rs w) :
    (∃ c : ℕ → ℤ, (∀ j < 31, Sym (c j)) ∧ IsCodeword c ∧ distance c w ≤ 4 ∧ ∀ j < 31, (Decode rs).recd j = c j) ∨
      (∀ c : ℕ → ℤ, (∀ j < 31, Sym (c j)) → IsCodeword c → ¬ distance c w ≤ 4) ∧
        ∀ j < 31, (Decode rs).recd j = w j := by
  by_cases hc : ∃ c : ℕ → ℤ, (∀ j < 31, Sym (c j)) ∧ IsCodeword c ∧ distance c w ≤ 4
  · obtain ⟨c, hs, hcode, hd⟩ := hc
    exact Or.inl ⟨c, hs, hcode, hd, fun j hj => decode_nearest h hw hs hcode hd hj⟩
  · refine Or.inr ⟨fun c hs hcode hd => hc ⟨c, hs, hcode, hd⟩, ?_⟩
    rcases decode_result h hw with ⟨hs, hcode, hd⟩ | hsame
    · exact absurd ⟨_, hs, hcode, hd⟩ hc
    · exact hsame

end Padding

/-- After a word of 20 symbols the padding is zero exactly when no code word within four places of the padded word has
a symbol there; the code word within four places, whatever it has in the padding, gives the message. -/
theorem padding_zero_iff {rs : ReedSolomon} (h : Constructed rs) (hm : rs.msg_len = 12) {code : List ℤ}
    (hlen : code.length = 20) (hsym : ∀ x ∈ code, Sym x) :
    ∃ r, SetCode code rs = some r ∧
      ((∀ j, 20 ≤ j → j < 31 → (Decode r).recd j = 0) ↔
        ∀ c : ℕ → ℤ, (∀ j < 31, Sym (c j)) → IsCodeword c → distance c (received 12 code) ≤ 4 →
          ∀ j, 20 ≤ j → j < 31 → c j = 0) ∧
      ∀ c : ℕ → ℤ, (∀ j < 31, Sym (c j)) → IsCodeword c → distance c (received 12 code) ≤ 4 →
        GetMessage (Decode r) = (List.range 12).map fun i => c (8 + i) := by
  have hk : kk = 23 := rfl
  obtain ⟨r, hset, hkeep, hw⟩ := setCode_received rs (by omega) (by omega) hsym
  rw [hm] at hw
  have hr := hkeep.constructed h
  have hnear := fun c hs hcode hd j hj => decode_nearest (c := c) (j := j) hr hw hs hcode hd hj
  refine ⟨r, hset, ⟨fun hzero c hs hcode hd j h1 h2 => ?_, fun hall j h1 h2 => ?_⟩, fun c hs hcode hd => ?_⟩
  · rw [← hnear c hs hcode hd j h2]
    exact hzero j h1 h2
  · rcases decode_outcome hr hw with ⟨c, hs, hcode, hd, hres⟩ | ⟨-, hres⟩
    · rw [hres j h2]
      exact hall c hs hcode hd j h1 h2
    · rw [hres j h2, received, if_neg (by omega), if_neg (by omega)]
  · have hlen' : (Decode r).msg_len = 12 := by rw [(decode_keeps r).msg_len, hkeep.msg_len, hm]
    rw [GetMessage, hlen']
    refine List.map_congr_left fun i hi => ?_
    have := List.mem_range.1 hi
    exact hnear c hs hcode hd (8 + i) (by omega)

/-- The word of a code word that is `1` at position 20 of `recd`, with a `1` moved from there to the first symbol of
the message. -/
def paddingCode : List ℤ := [1, 0, 0, 0, 0, 0, 0, 0, 0, 0, 0, 0, 10, 18, 30, 30, 26, 19, 8, 11]

/-- The logarithms of the code word near `paddingCode`. -/
def paddingIdx (j : ℕ) : ℤ := if j = 20 then 0 else [6, 30, 24, 24, 9, 17, 3, 27].getD j (-1)

theorem paddingIdx_idx : ∀ j < 31, Idx (paddingIdx j) := by decide

theorem paddingIdx_spec : (∀ j < 31, Sym (ofLogs paddingIdx j)) ∧ IsCodeword (ofLogs paddingIdx) ∧
    distance (ofLogs paddingIdx) (received 12 paddingCode) ≤ 4 := by
  refine ⟨by decide, isCodeword_ofLogs paddingIdx_idx (by decide +kernel), by decide +kernel⟩

/-- The correction falls into the padding, and the first symbol of the message changes with it. -/
theorem padding_not_zero : paddingCode.length = 20 ∧ (∀ x ∈ paddingCode, Sym x) ∧
    ∃ r, SetCode paddingCode (new default) = some r ∧ (Decode r).recd 20 = 1 ∧ (Decode r).recd 8 = 0 ∧
      paddingCode.getD 0 0 = 1 := by
  refine ⟨by decide, by decide, ?_⟩
  obtain ⟨r, hset, hkeep, hw⟩ := setCode_received (new default) (show paddingCode.length < kk by decide) rfl (by decide)
  obtain ⟨hs, hcode, hd⟩ := paddingIdx_spec
  have hres := fun j hj => decode_nearest (j := j) (hkeep.constructed (constructed_new default)) hw hs hcode hd hj
  exact ⟨r, hset, hres 20 (by omega), hres 8 (by omega), rfl⟩

theorem padding_zero_iff_paddingCode : ∃ r, SetCode paddingCode (new default) = some r ∧
    ¬ ∀ j, 20 ≤ j → j < 31 → (Decode r).recd j = 0 := by
  obtain ⟨r, hset, hiff, -⟩ :=
    padding_zero_iff (constructed_new default) rfl (show paddingCode.length = 20 from rfl) (by decide)
  obtain ⟨hs, hcode, hd⟩ := paddingIdx_spec
  exact ⟨r, hset, fun h => absurd (hiff.1 h _ hs hcode hd 20 (by omega) (by omega)) (by decide)⟩

/-! ## Every length -/

/-- A word that `SetCode` refuses leaves the object as it was. -/
theorem setCode_refuses {rs : ReedSolomon} {code : List ℤ} (h : kk ≤ code.length) : SetCode code rs = some rs :=
  if_neg fun hlt => absurd hlt.1 (Nat.not_lt.2 h)

/-- Every message of `m` symbols comes back from every word with at most four symbols wrong exactly when the word is
shorter than `kk`, not when the message is. -/
theorem roundtrip_iff (enc dec : ReedSolomon) (he : Constructed enc) (hd : Constructed dec) {m : ℕ} (h1 : 1 ≤ m)
    (hmk : m < kk) (hm : dec.msg_len = m) :
    (∀ message code : List ℤ, message.length = m → (∀ x ∈ message, Sym x) → code.length = m + 8 →
      (∀ x ∈ code, Sym x) → mismatches (m + 8) code (GetCode (Encode (SetMessage message enc))) ≤ 4 →
        ∃ r, SetCode code dec = some r ∧ GetMessage (Decode r) = message) ↔ m + 8 < kk := by
  constructor
  · intro hall
    by_contra hge
    -- the decoder keeps what it has, so two messages cannot both come back
    have hsame : ∀ x : ℤ, Sym x → GetMessage (Decode dec) = List.replicate m x := fun x hx => by
      have hms : ∀ y ∈ List.replicate m x, Sym y := fun y hy => by rw [List.eq_of_mem_replicate hy]; exact hx
      have hmlen : (SetMessage (List.replicate m x) enc).msg_len = m := List.length_replicate
      have hclen : (GetCode (Encode (SetMessage (List.replicate m x) enc))).length = m + 8 := by
        rw [getCode_length]
        exact congrArg (· + 8) hmlen
      have hcs := getCode_sym (setMessage_keeps (List.replicate m x) enc he) (by omega) fun i hi => by
        rw [setMessage_data _ enc hi]
        exact getD_sym hms i
      obtain ⟨r, hr, hmsg⟩ := hall (List.replicate m x) _ List.length_replicate hms hclen hcs (by simp [mismatches])
      rw [setCode_refuses (by omega)] at hr
      rw [Option.some.inj hr]
      exact hmsg
    have hne := (hsame 0 sym_zero).symm.trans (hsame 1 ⟨by omega, by omega⟩)
    rw [List.replicate_inj] at hne
    rcases hne.2 with h0 | h0
    · omega
    · exact absurd h0 (by decide)
  · intro hlt message code hlen hsym hcode hcs herr
    subst hlen
    obtain ⟨r, hset, -, hmsg⟩ := code_corrects enc dec he hd hm hlt hsym hcode hcs herr
    exact ⟨r, hset, hmsg⟩

/-- A decoder for 15 symbols whose `recd` has been zero since it was allocated: in index form, a word of ones. -/
def staleDecoder : ReedSolomon := { new default with msg_len := 15, recd := fun _ => 0 }

/-- A message of 15 zeros comes back as 15 ones. -/
theorem fifteen_lost : ¬ ∃ r, SetCode (GetCode (Encode (SetMessage (List.replicate 15 0) (new default)))) staleDecoder =
    some r ∧ GetMessage (Decode r) = List.replicate 15 0 := by
  rintro ⟨r, hset, hmsg⟩
  have hlen : (GetCode (Encode (SetMessage (List.replicate 15 0) (new default)))).length = 23 := getCode_length _
  rw [setCode_refuses hlen.ge] at hset
  obtain rfl := Option.some.inj hset
  have ht : Tables staleDecoder := (tables_new default).of_eq rfl rfl
  have hidx : ∀ j < 31, Idx ((fun _ => 0 : ℕ → ℤ) j) := by decide
  have hres := (decode_codeword ht (ofLogs_received hidx ht fun j _ => rfl)
    (isCodeword_ofLogs hidx (by decide +kernel))).2 8 (by omega)
  have hlen' : (Decode staleDecoder).msg_len = 15 := (decode_keeps staleDecoder).msg_len
  have hhead := congrArg (fun message => message.getD 0 0) hmsg
  rw [GetMessage, hlen'] at hhead
  exact absurd (hres.symm.trans hhead) (by decide)

theorem roundtrip_iff_five :
    ∃ r, SetCode (GetCode (Encode (SetMessage [5] (new default)))) { new default with msg_len := 1 } = some r ∧
      GetMessage (Decode r) = [5] := by
  have hd : Constructed { new default with msg_len := 1 } := constructed_new default
  have hsym : ∀ x ∈ ([5] : List ℤ), Sym x := by decide
  refine (roundtrip_iff (new default) _ (constructed_new default) hd (m := 1) le_rfl (by decide) rfl).2 (by decide)
    [5] _ rfl hsym (getCode_length _) ?_ (by simp [mismatches])
  refine getCode_sym (setMessage_keeps [5] _ (constructed_new default)) (by decide : 1 ≤ kk) fun i hi => ?_
  rw [setMessage_data _ _ hi]
  exact getD_sym hsym i

/-! ## Reuse -/

/-- The calls on an object; `msg_len` is a public field, which the decoders assign before `SetCode`. -/
inductive Call
  | SetMessage (message : List ℤ)
  | Encode
  | GetCode
  | setLength (msg_len : ℕ)
  | SetCode (code : List ℤ)
  | Decode
  | GetMessage

/-- One call with its answer, empty where the method returns nothing. -/
def call : Call → ReedSolomon → Option (List ℤ × ReedSolomon)
  | .SetMessage message, rs => some ([], SetMessage message rs)
  | .Encode, rs => some ([], Encode rs)
  | .GetCode, rs => some (GetCode rs, rs)
  | .setLength msg_len, rs => some ([], { rs with msg_len := msg_len })
  | .SetCode code, rs => (SetCode code rs).map ([], ·)
  | .Decode, rs => some ([], Decode rs)
  | .GetMessage, rs => some (GetMessage rs, rs)

/-- No call touches the tables. -/
theorem call_constructed {c : Call} {rs rs' : ReedSolomon} {answer : List ℤ} (h : Constructed rs)
    (hc : call c rs = some (answer, rs')) : Constructed rs' := by
  cases c with
  | SetMessage message =>
    obtain rfl : SetMessage message rs = rs' := congrArg Prod.snd (Option.some.inj hc)
    exact setMessage_keeps message rs h
  | Encode =>
    obtain rfl : Encode rs = rs' := congrArg Prod.snd (Option.some.inj hc)
    exact encode_constructed h
  | GetCode =>
    obtain rfl : rs = rs' := congrArg Prod.snd (Option.some.inj hc)
    exact h
  | setLength msg_len =>
    obtain rfl : { rs with msg_len := msg_len } = rs' := congrArg Prod.snd (Option.some.inj hc)
    exact h
  | SetCode code =>
    obtain ⟨r, hr, he⟩ := Option.map_eq_some_iff.1 hc
    obtain rfl : r = rs' := congrArg Prod.snd he
    exact (setCode_keeps hr).constructed h
  | Decode =>
    obtain rfl : Decode rs = rs' := congrArg Prod.snd (Option.some.inj hc)
    exact (decode_keeps rs).constructed h
  | GetMessage =>
    obtain rfl : rs = rs' := congrArg Prod.snd (Option.some.inj hc)
    exact h

theorem run_constructed {rs rs' : ReedSolomon} {log : List (Call × List ℤ)} (h : Constructed rs)
    (hrun : Run call rs log rs') : Constructed rs' :=
  hrun.rule (fun _ rs => Constructed rs) h fun _ _ _ _ _ hrs hc => call_constructed hrs hc

/-- The parity is determined by the data. -/
theorem encode_determined {rs rs' : ReedSolomon} (h : Constructed rs) (h' : Constructed rs')
    (hd : ∀ i < kk, Sym (rs.data i)) (heq : ∀ i < kk, rs'.data i = rs.data i) {k : ℕ} (hk : k < 8) :
    (Encode rs').bb k = (Encode rs).bb k := by
  have hd' : ∀ i < kk, Sym (rs'.data i) := fun i hi => by rw [heq i hi]; exact hd i hi
  have hdata : toPoly (fun i => ofPoly alpha (rs'.data i)) 22 = toPoly (fun i => ofPoly alpha (rs.data i)) 22 :=
    toPoly_congr fun i hi => by rw [heq i (Nat.lt_succ_of_le hi)]
  have hrem : toPoly (fun k => ofPoly alpha ((Encode rs').bb k)) 7 =
      toPoly (fun k => ofPoly alpha ((Encode rs).bb k)) 7 := by
    rw [encode_remainder h' hd', encode_remainder h hd, hdata, (h.generator alpha_root).2, (h'.generator alpha_root).2]
  have hcoeff := congrArg (fun p => p.coeff k) hrem
  simp only [coeff_toPoly _ (Nat.le_of_lt_succ hk)] at hcoeff
  exact ofPoly_inj alpha_root ((encode_spec alpha_root h' hd').1 k hk) ((encode_spec alpha_root h hd).1 k hk) hcoeff

/-- The result is determined by the received word. -/
theorem decode_determined {rs rs' : ReedSolomon} {w : ℕ → ℤ} (h : Constructed rs) (h' : Constructed rs')
    (hw : Received rs w) (hw' : Received rs' w) {j : ℕ} (hj : j < 31) : (Decode rs').recd j = (Decode rs).recd j := by
  rcases decode_outcome h hw with ⟨c, hs, hcode, hd, hres⟩ | ⟨hfar, hres⟩
  · rw [hres j hj]
    exact decode_nearest h' hw' hs hcode hd hj
  · rw [hres j hj]
    rcases decode_outcome h' hw' with ⟨c, hs, hcode, hd, -⟩ | ⟨-, hres'⟩
    · exact absurd hd (hfar c hs hcode)
    · exact hres' j hj

/-- After any calls, the next message is encoded and the next word is decoded as on an object just constructed. -/
theorem reused_fresh {mem mem' rs : ReedSolomon} {log : List (Call × List ℤ)} (hrun : Run call (new mem) log rs) :
    (∀ message : List ℤ, message.length ≤ kk → (∀ x ∈ message, Sym x) →
      GetCode (Encode (SetMessage message rs)) = GetCode (Encode (SetMessage message (new mem')))) ∧
    ∀ (msg_len : ℕ) (code : List ℤ), msg_len + 8 < kk → code.length = msg_len + 8 → (∀ x ∈ code, Sym x) →
      ∃ r r', SetCode code { rs with msg_len := msg_len } = some r ∧
        SetCode code { new mem' with msg_len := msg_len } = some r' ∧
        GetMessage (Decode r) = GetMessage (Decode r') := by
  have h : Constructed rs := run_constructed (constructed_new mem) hrun
  have h' : Constructed (new mem') := constructed_new mem'
  constructor
  · intro message hlen hsym
    have hdata : ∀ i < kk, (SetMessage message rs).data i = (SetMessage message (new mem')).data i := fun i hi =>
      (setMessage_data message rs hi).trans (setMessage_data message (new mem') hi).symm
    have hd : ∀ i < kk, Sym ((SetMessage message (new mem')).data i) := fun i hi => by
      rw [setMessage_data message _ hi]
      exact getD_sym hsym i
    refine congrArg₂ (· ++ ·) ?_ ?_
    · refine List.map_congr_left fun i hi => hdata i ?_
      have : i < message.length := List.mem_range.1 hi
      omega
    · refine List.map_congr_left fun k hk => ?_
      exact encode_determined (setMessage_keeps message _ h') (setMessage_keeps message rs h) hd hdata
        (List.mem_range.1 hk)
  · intro msg_len code hmk hlen hsym
    obtain ⟨r, hset, hkeep, hw⟩ := setCode_received { rs with msg_len := msg_len } (by omega) hlen hsym
    obtain ⟨r', hset', hkeep', hw'⟩ :=
      setCode_received { new mem' with msg_len := msg_len } (by omega) hlen hsym
    refine ⟨r, r', hset, hset', ?_⟩
    have hl : (Decode r).msg_len = msg_len := (decode_keeps r).msg_len.trans hkeep.msg_len
    have hl' : (Decode r').msg_len = msg_len := (decode_keeps r').msg_len.trans hkeep'.msg_len
    rw [GetMessage, GetMessage, hl, hl']
    refine List.map_congr_left fun i hi => ?_
    have : i < msg_len := List.mem_range.1 hi
    have hk : kk = 23 := rfl
    exact decode_determined (hkeep'.constructed h') (hkeep.constructed h) hw' hw (show 8 + i < 31 by omega)

/-- One message sent and one word received before. -/
theorem reused_fresh_once : ∃ log rs, Run call (new default) log rs ∧ log.map Prod.fst =
    [.SetMessage [3], .Encode, .GetCode, .setLength 12, .SetCode paddingCode, .Decode, .GetMessage] ∧
      GetCode (Encode (SetMessage [5] rs)) = GetCode (Encode (SetMessage [5] (new default))) := by
  obtain ⟨r, hset, -⟩ := setCode_received { Encode (SetMessage [3] (new default)) with msg_len := 12 }
    (show paddingCode.length < kk by decide) rfl (by decide)
  have h1 : Run call (new default) _ (SetMessage [3] (new default)) := .call (c := .SetMessage [3]) .nil rfl
  have h2 := (h1.call (c := .Encode) rfl).call (c := .GetCode) rfl
  have hc : call (.SetCode paddingCode) { Encode (SetMessage [3] (new default)) with msg_len := 12 } =
      some ([], r) := by
    rw [call, hset]
    rfl
  have h3 := (h2.call (c := .setLength 12) rfl).call hc
  have h4 := (h3.call (c := .Decode) rfl).call (c := .GetMessage) rfl
  exact ⟨_, _, h4, rfl, (@reused_fresh default default _ _ h4).1 [5] (by decide) (by decide)⟩

end ReedSolomon

end Undertone
