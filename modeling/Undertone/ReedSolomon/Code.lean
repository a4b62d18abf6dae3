import Mathlib.Algebra.Polynomial.Div
import Undertone.ReedSolomon.Message

/-!
# The code

The code words are the words of 31 symbols that vanish, as polynomials over the field with 32 elements, at
`α, ..., α^8`. `Encode` puts the remainder modulo the generator below the data, which makes a code word
(`encode_systematic`). `Decode` is a bounded-distance decoder: it returns the code word within four places of the
received word where there is one and the received word itself where there is none (`decode_bounded_distance`).
-/

namespace Undertone

open CountedLoop Polynomial Locator

namespace ReedSolomon

/-! ## Words -/

/-- The value at `α^m` of the word `w(X)`, with symbols in polynomial form. -/
noncomputable def valueAt (w : ℕ → ℤ) (m : ℕ) : GaloisField 2 5 :=
  ∑ j ∈ Finset.range 31, ofPoly alpha (w j) * (alpha ^ m) ^ j

def IsCodeword (w : ℕ → ℤ) : Prop := ∀ m, 1 ≤ m → m ≤ 8 → valueAt w m = 0

/-- The number of places where two words differ. -/
def distance (v w : ℕ → ℤ) : ℕ := ((Finset.range 31).filter fun j => v j ≠ w j).card

/-- `recd` holds the word `w` in index form, as `SetCode` leaves it. -/
structure Received (rs : ReedSolomon) (w : ℕ → ℤ) : Prop where
  sym : ∀ j < 31, Sym (w j)
  recd : ∀ j < 31, rs.recd j = rs.log (w j)

theorem valueAt_eq (w : ℕ → ℤ) (m : ℕ) :
    valueAt w m = ∑ j ∈ Finset.range 31, ofPoly alpha (w j) * (alpha ^ j) ^ m :=
  Finset.sum_congr rfl fun j _ => by rw [← pow_mul, ← pow_mul, mul_comm m j]

theorem valueAt_congr {v w : ℕ → ℤ} (h : ∀ j < 31, v j = w j) (m : ℕ) : valueAt v m = valueAt w m :=
  Finset.sum_congr rfl fun j hj => by rw [h j (Finset.mem_range.1 hj)]

theorem IsCodeword.congr {v w : ℕ → ℤ} (h : ∀ j < 31, v j = w j) (hw : IsCodeword w) : IsCodeword v :=
  fun m h1 h8 => (valueAt_congr h m).trans (hw m h1 h8)

section Received

variable {rs : ReedSolomon} {w : ℕ → ℤ}

theorem Received.idx (hw : Received rs w) (ht : Tables rs) {j : ℕ} (hj : j < 31) :
    Idx (rs.recd j) ∧ ofIndex alpha (rs.recd j) = ofPoly alpha (w j) := by
  rw [hw.recd j hj]
  exact ⟨ht.log_idx (hw.sym j hj), ht.log_spec alpha_root (hw.sym j hj)⟩

/-- The syndromes of the code are the values of the word. -/
theorem Received.syndrome (hw : Received rs w) (ht : Tables rs) (m : ℕ) :
    Sym (rs.syndrome m) ∧ ofPoly alpha (rs.syndrome m) = valueAt w m := by
  obtain ⟨hs, hv⟩ := syndrome_spec alpha_root ht (fun j hj => (hw.idx ht hj).1) m
  refine ⟨hs, hv.trans ?_⟩
  rw [valueAt_eq]
  exact Finset.sum_congr rfl fun j hj => by rw [(hw.idx ht (Finset.mem_range.1 hj)).2]

theorem Received.syndrome_eq_zero (hw : Received rs w) (ht : Tables rs) (m : ℕ) :
    rs.syndrome m = 0 ↔ valueAt w m = 0 := by
  obtain ⟨hs, hv⟩ := hw.syndrome ht m
  rw [← hv]
  constructor
  · intro h
    rw [h, ofPoly_zero]
  · exact ofPoly_eq_zero alpha_root hs

theorem Received.syndromes (hw : Received rs w) (ht : Tables rs) : Syndromes alpha (valueAt w) (syndromes rs).2 := by
  obtain ⟨-, s, hframe, hs⟩ := syndromes_spec rs
  intro n h1 h8
  obtain ⟨hsym, hval⟩ := hw.syndrome ht n
  simp only [hframe]
  rw [hs n h1 h8]
  exact ⟨ht.log_idx hsym, by rw [ht.log_spec alpha_root hsym, hval]⟩

/-- Converting the received word gives the word. -/
theorem Received.toPolynomial (hw : Received rs w) (ht : Tables rs) {j : ℕ} (hj : j < 31) :
    (toPolynomial rs).recd j = w j := by
  obtain ⟨hs, hv⟩ := toPolynomial_spec alpha_root rs ht (fun j hj => (hw.idx ht hj).1) hj
  exact ofPoly_inj alpha_root hs (hw.sym j hj) (hv.trans (hw.idx ht hj).2)

theorem Received.congr {rs' : ReedSolomon} (hw : Received rs w) (hr : rs'.recd = rs.recd)
    (hi : rs'.index_of = rs.index_of) : Received rs' w :=
  ⟨hw.sym, fun j hj => by rw [hr, hw.recd j hj, log, log, hi]⟩

end Received

/-- A syndrome of a word given by its logarithms, computed with the table of the powers of `α`. -/
def tableSyndrome (idx : ℕ → ℤ) (i : ℕ) : ℤ :=
  forUp 0 31 (fun j v => if idx j ≠ -1 then Int.xor v (alphaTable ((idx j + i * j) % 31).toNat) else v) 0

theorem syndrome_eq_tableSyndrome {rs : ReedSolomon} (ht : Tables rs) {idx : ℕ → ℤ} (hidx : ∀ j < 31, -1 ≤ idx j)
    (h : ∀ j < 31, rs.recd j = idx j) (i : ℕ) : rs.syndrome i = tableSyndrome idx i := by
  refine forUp_congr (fun j v _ hj => ?_) 0
  have hj : j < 31 := hj
  rw [h j hj]
  by_cases h0 : idx j = -1
  · rw [if_neg (not_not.2 h0), if_neg (not_not.2 h0)]
  · have hpos : 0 ≤ idx j + i * j := by
      have := hidx j hj
      have : (0 : ℤ) ≤ i * j := by positivity
      omega
    have hmod : (idx j + i * j).tmod nn = (idx j + i * j) % 31 := by simpa using Int.tmod_eq_emod_of_nonneg hpos
    have hlt : ((idx j + i * j) % 31).toNat < 31 := by
      have := Int.emod_lt_of_pos (idx j + i * j) (show (0 : ℤ) < 31 by decide)
      have := Int.emod_nonneg (idx j + i * j) (show (31 : ℤ) ≠ 0 by decide)
      omega
    rw [if_pos h0, if_pos h0, exp, hmod, ht.alpha _ hlt]

/-- The word with the logarithms `idx`. -/
def ofLogs (idx : ℕ → ℤ) (j : ℕ) : ℤ := if idx j = -1 then 0 else alphaTable (idx j).toNat

section Logs

variable {rs : ReedSolomon} {idx : ℕ → ℤ} (hidx : ∀ j < 31, Idx (idx j))

include hidx

theorem ofLogs_received (ht : Tables rs) (h : ∀ j < 31, rs.recd j = idx j) : Received rs (ofLogs idx) := by
  have hword : ∀ j < 31, Sym (ofLogs idx j) ∧ rs.log (ofLogs idx j) = idx j := fun j hj => by
    obtain ⟨hlo, hhi⟩ := hidx j hj
    unfold ofLogs
    by_cases h0 : idx j = -1
    · rw [if_pos h0]
      exact ⟨sym_zero, by rw [ht.log_zero, h0]⟩
    · have hlt : (idx j).toNat < 31 := by omega
      rw [if_neg h0, ht.log_alphaTable hlt, ← ht.alpha _ hlt]
      exact ⟨ht.alpha_sym (by omega) hhi, by omega⟩
  refine ⟨fun j hj => (hword j hj).1, fun j hj => ?_⟩
  rw [h j hj, (hword j hj).2]

/-- Whether a word vanishes at `α^m` can be computed with the table. -/
theorem valueAt_ofLogs (m : ℕ) : valueAt (ofLogs idx) m = 0 ↔ tableSyndrome idx m = 0 := by
  have ht : Tables { new default with recd := idx } := (tables_new default).of_eq rfl rfl
  rw [← (ofLogs_received hidx ht fun j _ => rfl).syndrome_eq_zero ht m,
    syndrome_eq_tableSyndrome ht (fun j hj => (hidx j hj).1) (fun j _ => rfl) m]

theorem isCodeword_ofLogs (h : ∀ m < 9, m ≠ 0 → tableSyndrome idx m = 0) : IsCodeword (ofLogs idx) :=
  fun m h1 h8 => (valueAt_ofLogs hidx m).2 (h m (by omega) (by omega))

end Logs

/-! ## Encoding -/

theorem dataPoly_zero {K : Type*} [Field K] (α : K) (rs : ReedSolomon) :
    dataPoly α rs 0 = toPoly (fun i => ofPoly α (rs.data i)) 22 := by
  rw [dataPoly, toPoly, Finset.range_eq_Ico]
  rfl

theorem degree_toPoly_lt {K : Type*} [Field K] (c : ℕ → K) (n : ℕ) : (toPoly c n).degree < (n + 1 : ℕ) :=
  degree_rowPoly_lt c n

/-- The parity is the remainder of the shifted data modulo the generator. -/
theorem encode_remainder {rs : ReedSolomon} (h : Constructed rs) (hd : ∀ i < kk, Sym (rs.data i)) :
    toPoly (fun k => ofPoly alpha ((Encode rs).bb k)) 7 =
      (X ^ 8 * toPoly (fun i => ofPoly alpha (rs.data i)) 22) %ₘ toPoly (fun i => ofIndex alpha (rs.gg i)) 8 := by
  obtain ⟨Q, hQ⟩ := (encode_spec alpha_root h hd).2
  have hgen := (h.generator alpha_root).2
  have hmonic := monic_rootPoly alpha 8
  rw [hgen, ← dataPoly_zero]
  refine (div_modByMonic_unique Q _ hmonic ⟨?_, ?_⟩).2.symm
  · have hself : ∀ p : (GaloisField 2 5)[X], p + p = 0 := CharTwo.add_self_eq_zero
    rw [← hQ, add_comm (dataPoly alpha rs 0 * X ^ 8), ← add_assoc, hself, zero_add, mul_comm]
  · rw [degree_eq_natDegree hmonic.ne_zero, natDegree_rootPoly]
    exact degree_toPoly_lt _ 7

theorem encode_codeword {rs : ReedSolomon} (h : Constructed rs) (hd : ∀ i < kk, Sym (rs.data i)) :
    IsCodeword (codeWord (Encode rs)) := by
  intro m h1 h8
  rw [valueAt_eq]
  exact codeWord_root alpha_root h hd h1 h8

/-! ## Decoding -/

/-- A code word has no syndromes and is returned as it is. -/
theorem decode_codeword {rs : ReedSolomon} (ht : Tables rs) {w : ℕ → ℤ} (hw : Received rs w) (hc : IsCodeword w) :
    (∀ i, 1 ≤ i → i ≤ 8 → rs.syndrome i = 0) ∧ ∀ j < 31, (Decode rs).recd j = w j := by
  have hz : ∀ i, 1 ≤ i → i ≤ 8 → rs.syndrome i = 0 := fun i h1 h8 => (hw.syndrome_eq_zero ht i).2 (hc i h1 h8)
  refine ⟨hz, fun j hj => ?_⟩
  obtain ⟨hflag, s, hframe, -⟩ := syndromes_spec rs
  have hfalse : (ReedSolomon.syndromes rs).1 = false := by
    rw [← Bool.not_eq_true, hflag]
    rintro ⟨n, h1, h8, hne⟩
    exact hne (hz n h1 h8)
  rw [decode_clean (Prod.ext hfalse hframe)]
  exact (hw.congr rfl rfl).toPolynomial (ht.of_eq rfl rfl) hj

/-- The data of an encoded word stand above the remainder of the shifted data modulo the generator; the word vanishes
at `α, ..., α^8`, so a decoder finds no syndromes and leaves it as it is. -/
theorem encode_systematic {rs : ReedSolomon} (h : Constructed rs) (hd : ∀ i < kk, Sym (rs.data i)) :
    IsCodeword (codeWord (Encode rs)) ∧
      toPoly (fun k => ofPoly alpha ((Encode rs).bb k)) 7 =
        (X ^ 8 * toPoly (fun i => ofPoly alpha (rs.data i)) 22) %ₘ toPoly (fun i => ofIndex alpha (rs.gg i)) 8 ∧
      ∀ dec : ReedSolomon, Constructed dec → (∀ j < 31, dec.recd j = dec.log (codeWord (Encode rs) j)) →
        (∀ i, 1 ≤ i → i ≤ 8 → dec.syndrome i = 0) ∧ ∀ j < 31, (Decode dec).recd j = codeWord (Encode rs) j := by
  refine ⟨encode_codeword h hd, encode_remainder h hd, fun dec hdec hrecd => ?_⟩
  exact decode_codeword hdec.tables ⟨fun j hj => codeWord_sym h hd hj, hrecd⟩ (encode_codeword h hd)

theorem encode_systematic_count : IsCodeword (codeWord (Encode { new default with data := fun i => i })) := by
  have h : Constructed { new default with data := fun i => i } := constructed_new default
  refine (encode_systematic h ?_).1
  intro i hi
  have : i < 23 := hi
  exact ⟨Int.natCast_nonneg i, by simp only; omega⟩

/-- Where the search finds as many roots as the locator has, the corrected word is a code word. -/
theorem decode_corrected_codeword {rs r r' r'' : ReedSolomon} {u count : ℕ} (ht : Tables rs) {w : ℕ → ℤ}
    (hw : Received rs w) (hs : syndromes rs = (true, r)) (hf : findLocator r = (u, r')) (hl : r'.l u ≤ tt)
    (hr : findRoots u r' = (count, r'')) (hc : count = r''.l u) :
    (∀ j < 31, Sym ((Decode rs).recd j)) ∧ IsCodeword (Decode rs).recd ∧ distance (Decode rs).recd w ≤ 4 := by
  obtain ⟨-, s, hframe, -⟩ := syndromes_spec rs
  have hsyn := hw.syndromes ht
  rw [hs] at hframe hsyn
  simp only at hframe hsyn
  have htr : Tables r := by rw [hframe]; exact ht.of_eq rfl rfl
  obtain ⟨d, elp, l, u_lu, hframe'⟩ := findLocator_frame r
  have hrows := findLocator_rows alpha_root htr hsyn
  rw [hf] at hframe' hrows
  simp only at hframe' hrows
  obtain ⟨rfl, htable⟩ := hrows hl
  obtain ⟨elp', reg, root, loc, hframe''⟩ := findRoots_frame 9 r'
  have hloc := exists_located alpha_root htable hl
  rw [hr] at hframe'' hloc
  simp only at hframe'' hloc
  obtain ⟨E, y, hE, hcard, hpower, hloc⟩ := hloc hc
  -- the word that the errors are added to is the received one
  have hrecd : (formEvaluator 9 r'').recd = rs.recd := by
    simp only [formEvaluator]
    rw [hframe'', hframe', hframe]
  have hout : ∀ j < 31, Sym ((Decode rs).recd j) ∧
      ofPoly alpha ((Decode rs).recd j) = ofPoly alpha (w j) + if j ∈ E then y j else 0 := fun j hj => by
    rw [decode_corrected hs hf hl hr hc, ← (hw.idx ht hj).2, ← hrecd]
    exact correctErrors_spec alpha_root hloc (fun j hj => by rw [hrecd]; exact (hw.idx ht hj).1) hj
  refine ⟨fun j hj => (hout j hj).1, fun m h1 h8 => ?_, ?_⟩
  · have hsum : ∑ j ∈ Finset.range 31, (if j ∈ E then y j else 0) * (alpha ^ j) ^ m = powerSum E (alpha ^ ·) y m := by
      have hsub : E ⊆ Finset.range 31 := fun j hj => Finset.mem_range.2 (hE j hj)
      simp only [ite_mul, zero_mul]
      rw [← Finset.sum_filter, Finset.filter_mem_eq_inter, Finset.inter_eq_right.2 hsub, powerSum]
    calc valueAt (Decode rs).recd m
        = ∑ j ∈ Finset.range 31, (ofPoly alpha (w j) + if j ∈ E then y j else 0) * (alpha ^ j) ^ m := by
          rw [valueAt_eq]
          exact Finset.sum_congr rfl fun j hj => by rw [(hout j (Finset.mem_range.1 hj)).2]
      _ = valueAt w m + powerSum E (alpha ^ ·) y m := by
          simp only [add_mul, Finset.sum_add_distrib]
          rw [hsum, valueAt_eq]
      _ = 0 := by rw [← hpower m h1 h8, CharTwo.add_self_eq_zero]
  · refine (Finset.card_le_card fun j hj => ?_).trans hcard
    obtain ⟨hj, hne⟩ := Finset.mem_filter.1 hj
    have hj := Finset.mem_range.1 hj
    by_contra hjE
    obtain ⟨hsym, hval⟩ := hout j hj
    rw [if_neg hjE, add_zero] at hval
    exact hne (ofPoly_inj alpha_root hsym (hw.sym j hj) hval)

/-- `Decode` returns a code word at most four places away, or the word as it was received. -/
theorem decode_result {rs : ReedSolomon} (h : Constructed rs) {w : ℕ → ℤ} (hw : Received rs w) :
    (∀ j < 31, Sym ((Decode rs).recd j)) ∧ IsCodeword (Decode rs).recd ∧ distance (Decode rs).recd w ≤ 4 ∨
      ∀ j < 31, (Decode rs).recd j = w j := by
  rcases decode_cases rs with hs | hu | ⟨r, r', r'', u, count, hs, hf, hl, hr, hc⟩
  · obtain ⟨-, s, hframe, -⟩ := syndromes_spec rs
    rw [decode_clean (Prod.ext hs hframe)]
    exact Or.inr fun j hj => (hw.congr rfl rfl).toPolynomial (h.tables.of_eq rfl rfl) hj
  · obtain ⟨r, hkeep, hrecd, hdec⟩ := decode_uncorrectable hu
    rw [hdec]
    exact Or.inr fun j hj => (hw.congr hrecd hkeep.index_of).toPolynomial (hkeep.constructed h).tables hj
  · exact Or.inl (decode_corrected_codeword h.tables hw hs hf hl hr hc)

/-- Where there is a code word at most four places away, `Decode` returns it. -/
theorem decode_nearest {rs : ReedSolomon} (h : Constructed rs) {w : ℕ → ℤ} (hw : Received rs w) {c : ℕ → ℤ}
    (hsym : ∀ j < 31, Sym (c j)) (hcode : IsCodeword c) (hnear : distance c w ≤ 4) {j : ℕ} (hj : j < 31) :
    (Decode rs).recd j = c j := by
  refine decode_corrects alpha_root h.tables hsym hw.sym (fun m h1 h8 => ?_) hnear hw.recd hj
  rw [← valueAt_eq]
  exact hcode m h1 h8

/-- Two code words that agree above the parity are the same: a word with half of the parity of each is four places away
from both. -/
theorem IsCodeword.unique {v w : ℕ → ℤ} (hv : IsCodeword v) (hw : IsCodeword w) (hvsym : ∀ j < 31, Sym (v j))
    (hwsym : ∀ j < 31, Sym (w j)) (hdata : ∀ j, 8 ≤ j → j < 31 → v j = w j) {j : ℕ} (hj : j < 31) : v j = w j := by
  set rs : ReedSolomon := { new default with recd := fun j => (new default).log (if j < 4 then v j else w j) } with hrs
  have hconstructed : Constructed rs := constructed_new default
  have hrecv : Received rs fun j => if j < 4 then v j else w j := by
    refine ⟨fun j hj => ?_, fun j _ => rfl⟩
    split
    · exact hvsym j hj
    · exact hwsym j hj
  have hnearv : distance v (fun j => if j < 4 then v j else w j) ≤ 4 := by
    have hsub : ((Finset.range 31).filter fun j => v j ≠ if j < 4 then v j else w j) ⊆ Finset.Ico 4 8 := by
      intro i hi
      obtain ⟨hi, hne⟩ := Finset.mem_filter.1 hi
      have hi := Finset.mem_range.1 hi
      rw [Finset.mem_Ico]
      by_contra hout
      refine hne ?_
      by_cases h4 : i < 4
      · rw [if_pos h4]
      · rw [if_neg h4]
        exact hdata i (by omega) hi
    exact Finset.card_le_card hsub
  have hnearw : distance w (fun j => if j < 4 then v j else w j) ≤ 4 := by
    have hsub : ((Finset.range 31).filter fun j => w j ≠ if j < 4 then v j else w j) ⊆ Finset.range 4 := by
      intro i hi
      obtain ⟨hi, hne⟩ := Finset.mem_filter.1 hi
      rw [Finset.mem_range]
      by_contra hout
      exact hne (if_neg hout).symm
    exact Finset.card_le_card hsub
  exact (decode_nearest hconstructed hrecv hvsym hv hnearv hj).symm.trans
    (decode_nearest hconstructed hrecv hwsym hw hnearw hj)

/-- The code word of a message is the only one with this message. -/
theorem getCode_unique {rs : ReedSolomon} (h : Constructed rs) {message code : List ℤ} (hlen : message.length + 8 ≤ 31)
    (hsym : ∀ x ∈ message, Sym x) (hclen : code.length = message.length + 8) (hcsym : ∀ x ∈ code, Sym x)
    (hmsg : ∀ i < message.length, code.getD i 0 = message.getD i 0)
    (hcode : IsCodeword (received message.length code)) : GetCode (Encode (SetMessage message rs)) = code := by
  have h' : Constructed (SetMessage message rs) := setMessage_keeps message rs h
  have hdata : ∀ i < kk, (SetMessage message rs).data i = message.getD i 0 := fun i hi => setMessage_data message rs hi
  have hdsym : ∀ i < kk, Sym ((SetMessage message rs).data i) := fun i hi => by
    rw [hdata i hi]
    exact getD_sym hsym i
  have hk : kk = 23 := rfl
  have hmlen : (Encode (SetMessage message rs)).msg_len = message.length := rfl
  have hagree : ∀ j < 31, codeWord (Encode (SetMessage message rs)) j = received message.length code j := by
    intro j hj
    refine (encode_codeword h' hdsym).unique hcode (fun j hj => codeWord_sym h' hdsym hj)
      (fun j _ => received_sym hcsym _ j) (fun j h8 hj => ?_) hj
    have hcell : codeWord (Encode (SetMessage message rs)) j = message.getD (j - 8) 0 := by
      rw [codeWord, if_neg (by omega)]
      exact hdata (j - 8) (by omega)
    rw [hcell, received, if_neg (by omega)]
    by_cases hin : j < 8 + message.length
    · rw [if_pos hin, hmsg (j - 8) (by omega)]
    · rw [if_neg hin, List.getD_eq_default _ _ (by omega)]
  have hcells : ∀ i < message.length + 8, (GetCode (Encode (SetMessage message rs))).getD i 0 = code.getD i 0 := by
    intro i hi
    rw [getCode_getD _ (by rw [hmlen]; exact hi), hmlen]
    by_cases hin : i < message.length
    · rw [if_pos hin, hmsg i hin]
      exact hdata i (by omega)
    · rw [if_neg hin]
      have hparity := hagree (i - message.length) (by omega)
      rw [codeWord, if_pos (by omega), received, if_pos (by omega), Nat.add_sub_cancel' (by omega)] at hparity
      exact hparity
  refine List.ext_getElem ((getCode_length _).trans (hmlen ▸ hclen.symm)) fun i h1 h2 => ?_
  have hcell := hcells i (by omega)
  rwa [List.getD_eq_getElem _ _ h1, List.getD_eq_getElem _ _ h2] at hcell

/-- The outcome of `Decode` on any received word: a code word at most four places away, or the word as it was received;
and the code word whenever there is one that near. -/
theorem decode_bounded_distance {rs : ReedSolomon} (h : Constructed rs) {w : ℕ → ℤ} (hw : Received rs w) :
    ((∀ j < 31, Sym ((Decode rs).recd j)) ∧ IsCodeword (Decode rs).recd ∧ distance (Decode rs).recd w ≤ 4 ∨
      ∀ j < 31, (Decode rs).recd j = w j) ∧
    ∀ c : ℕ → ℤ, (∀ j < 31, Sym (c j)) → IsCodeword c → distance c w ≤ 4 → ∀ j < 31, (Decode rs).recd j = c j := by
  constructor
  · exact decode_result h hw
  · intro c hsym hcode hnear j hj
    exact decode_nearest h hw hsym hcode hnear hj

/-- The zero word with one symbol received wrong. -/
def oneWrong : ReedSolomon := { new default with recd := fun j => (new default).log (if j = 3 then 7 else 0) }

theorem decode_bounded_distance_oneWrong : (List.range 31).map (Decode oneWrong).recd = List.replicate 31 0 := by
  have hword : Received oneWrong (fun j => if j = 3 then 7 else 0) := by
    constructor
    · intro j _
      split <;> exact ⟨by omega, by omega⟩
    · intro j _
      rfl
  have h : Constructed oneWrong := constructed_new default
  have hcode : IsCodeword fun _ => 0 := fun m _ _ => by
    simp only [valueAt, ofPoly_zero, zero_mul, Finset.sum_const_zero]
  have hzero := (decode_bounded_distance h hword).2 (fun _ => 0) (fun j _ => sym_zero) hcode (by decide)
  refine List.eq_replicate_iff.2 ⟨by simp, fun x hx => ?_⟩
  obtain ⟨j, hj, rfl⟩ := List.mem_map.1 hx
  exact hzero j (List.mem_range.1 hj)

end ReedSolomon

end Undertone
