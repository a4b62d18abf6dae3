import Undertone.ReedSolomon.Decode
import Undertone.ReedSolomon.Encode

/-!
# Messages through the codec

`SetMessage`, `Encode` and `GetCode` make a code word of the message and 8 parities; `SetCode`, `Decode` and
`GetMessage` give the message back from every word that differs from it in at most four places (`code_corrects`). A word
that `Decode` gives up on comes back as it is (`decode_uncorrectable`).
-/

namespace Undertone

open CountedLoop

namespace ReedSolomon

/-! ## What `Decode` leaves alone -/

/-- Fields that no phase of the decoder writes. -/
structure Keeps (rs rs' : ReedSolomon) : Prop where
  msg_len : rs'.msg_len = rs.msg_len
  alpha_to : rs'.alpha_to = rs.alpha_to
  index_of : rs'.index_of = rs.index_of
  gg : rs'.gg = rs.gg

theorem Keeps.rfl' {rs : ReedSolomon} : Keeps rs rs := ⟨rfl, rfl, rfl, rfl⟩

theorem Keeps.trans {rs rs' rs'' : ReedSolomon} (h : Keeps rs rs') (h' : Keeps rs' rs'') : Keeps rs rs'' :=
  ⟨h'.msg_len.trans h.msg_len, h'.alpha_to.trans h.alpha_to, h'.index_of.trans h.index_of, h'.gg.trans h.gg⟩

theorem Keeps.constructed {rs rs' : ReedSolomon} (h : Keeps rs rs') (hc : Constructed rs) : Constructed rs' := by
  obtain ⟨mem, h1, h2, h3⟩ := hc
  exact ⟨mem, h.alpha_to.trans h1, h.index_of.trans h2, h.gg.trans h3⟩

theorem syndromes_keeps (rs : ReedSolomon) : Keeps rs (syndromes rs).2 := by
  obtain ⟨-, s, h, -⟩ := syndromes_spec rs
  rw [h]
  exact ⟨rfl, rfl, rfl, rfl⟩

theorem findLocator_keeps (rs : ReedSolomon) : Keeps rs (findLocator rs).2 := by
  obtain ⟨d, elp, l, u_lu, h⟩ := findLocator_frame rs
  rw [h]
  exact ⟨rfl, rfl, rfl, rfl⟩

theorem findRoots_keeps (u : ℕ) (rs : ReedSolomon) : Keeps rs (findRoots u rs).2 := by
  obtain ⟨elp, reg, root, loc, h⟩ := findRoots_frame u rs
  rw [h]
  exact ⟨rfl, rfl, rfl, rfl⟩

theorem toPolynomial_keeps (rs : ReedSolomon) : Keeps rs (toPolynomial rs) := ⟨rfl, rfl, rfl, rfl⟩

theorem correctErrors_keeps (u : ℕ) (rs : ReedSolomon) : Keeps rs (correctErrors u rs) := by
  refine forUp_rule (P := fun _ r => Keeps rs r) (Nat.zero_le _) ⟨rfl, rfl, rfl, rfl⟩ ?_
  intro i r _ _ h
  refine h.trans ?_
  unfold correctOne
  simp only
  split <;> exact ⟨rfl, rfl, rfl, rfl⟩

/-! ## The ends of `Decode` -/

/-- The decoder gives up: the locator has degree above `tt`, or not as many roots as its degree. -/
inductive Uncorrectable (rs : ReedSolomon) : Prop
  | degree {r r' : ReedSolomon} {u : ℕ} (hs : syndromes rs = (true, r)) (hf : findLocator r = (u, r'))
      (hl : ¬ r'.l u ≤ tt) : Uncorrectable rs
  | roots {r r' r'' : ReedSolomon} {u count : ℕ} (hs : syndromes rs = (true, r)) (hf : findLocator r = (u, r'))
      (hl : r'.l u ≤ tt) (hr : findRoots u r' = (count, r'')) (hc : ¬ count = r''.l u) : Uncorrectable rs

theorem decode_cases (rs : ReedSolomon) :
    (syndromes rs).1 = false ∨ Uncorrectable rs ∨
      ∃ r r' r'' u count, syndromes rs = (true, r) ∧ findLocator r = (u, r') ∧ r'.l u ≤ tt ∧
        findRoots u r' = (count, r'') ∧ count = r''.l u := by
  rcases hs : syndromes rs with ⟨flag, r⟩
  cases flag with
  | false => exact Or.inl rfl
  | true =>
    refine Or.inr ?_
    rcases hf : findLocator r with ⟨u, r'⟩
    by_cases hl : r'.l u ≤ tt
    · rcases hr : findRoots u r' with ⟨count, r''⟩
      by_cases hc : count = r''.l u
      · exact Or.inr ⟨r, r', r'', u, count, rfl, hf, hl, hr, hc⟩
      · exact Or.inl (.roots hs hf hl hr hc)
    · exact Or.inl (.degree hs hf hl)

/-- A word that the decoder gives up on is only converted to polynomial form. -/
theorem decode_uncorrectable {rs : ReedSolomon} (h : Uncorrectable rs) :
    ∃ r, Keeps rs r ∧ r.recd = rs.recd ∧ Decode rs = toPolynomial r := by
  cases h with
  | @degree r r' u hs hf hl =>
    have k1 := syndromes_keeps rs
    have k2 := findLocator_keeps r
    obtain ⟨-, s, e1, -⟩ := syndromes_spec rs
    obtain ⟨_, _, _, _, e2⟩ := findLocator_frame r
    rw [hs] at k1 e1
    rw [hf] at k2 e2
    simp only at k1 k2 e1 e2
    exact ⟨r', k1.trans k2, by rw [e2, e1], decode_degree hs hf hl⟩
  | @roots r r' r'' u count hs hf hl hr hc =>
    have k1 := syndromes_keeps rs
    have k2 := findLocator_keeps r
    have k3 := findRoots_keeps u r'
    obtain ⟨-, s, e1, -⟩ := syndromes_spec rs
    obtain ⟨_, _, _, _, e2⟩ := findLocator_frame r
    obtain ⟨_, _, _, _, e3⟩ := findRoots_frame u r'
    rw [hs] at k1 e1
    rw [hf] at k2 e2
    rw [hr] at k3 e3
    simp only at k1 k2 k3 e1 e2 e3
    exact ⟨r'', (k1.trans k2).trans k3, by rw [e3, e2, e1], decode_roots hs hf hl hr hc⟩

/-- As long as the syndromes vanish the locator stays `1`, and no row of the table has a discrepancy. -/
structure Quiet (v : ℕ) (rs : ReedSolomon) : Prop where
  l_zero : rs.l 0 = 0
  l_last : rs.l v = 0
  d_last : rs.d v = rs.s v
  d_done : ∀ q, 1 ≤ q → q < v → rs.d q = -1

theorem initTable_quiet (rs : ReedSolomon) : Quiet 1 (initTable rs) :=
  ⟨by simp [initTable], by simp [initTable], by simp [initTable], fun q h1 h2 => by omega⟩

theorem Quiet.step {v : ℕ} {rs : ReedSolomon} (h : Quiet v rs) (ht : Tables rs) (h1 : 1 ≤ v) (h8 : v < 8)
    (hs : rs.s v = -1) (hx : ∃ x, Sym x ∧ rs.s (v + 1) = rs.log x) : Quiet (v + 1) (berlekampStep v rs) := by
  obtain ⟨x, hx, hsx⟩ := hx
  have hl : (copyRow v rs).l (v + 1) = 0 := by simp [copyRow, h.l_last]
  have hlog : rs.log (if rs.s (v + 1) ≠ -1 then rs.alpha_to (rs.s (v + 1)).toNat else 0) = rs.s (v + 1) := by
    rw [hsx]
    by_cases h0 : x = 0
    · rw [h0, ht.log_zero, if_neg (by simp), ht.log_zero]
    · rw [if_pos (fun h => h0 ((ht.log_eq_neg_one hx).1 h)), ht.alpha_to_log hx h0]
  unfold berlekampStep
  rw [if_pos (h.d_last.trans hs)]
  simp only [if_pos (show v < nn - kk from h8)]
  refine ⟨?_, hl, ?_, fun q hq hqv => ?_⟩
  · simp [copyRow, h.l_zero]
  · simp only [Function.update_self]
    refine Eq.trans (congrArg _ ?_) hlog
    unfold discrepancy
    simp only [hl]
    exact forUp_self 1 _ _
  · simp only
    rw [Function.update_of_ne (by omega)]
    rcases Nat.lt_or_eq_of_le (Nat.le_of_lt_succ hqv) with hlt | rfl
    · exact h.d_done q hq hlt
    · exact h.d_last.trans hs

/-- The only row with a discrepancy is the sentinel. -/
theorem Quiet.selectRow_eq {u : ℕ} {rs : ReedSolomon} (h : Quiet (u + 1) rs) : selectRow rs (u + 1) = 0 := by
  have hlast : ∀ k ≤ u, lastNonzero rs.d k = 0 := fun k hk => by
    induction k with
    | zero => rfl
    | succ k ih => exact (if_pos (h.d_done (k + 1) (by omega) (by omega))).trans (ih (by omega))
  unfold selectRow
  simp only [Nat.add_sub_cancel, hlast u le_rfl]
  exact if_neg (Nat.lt_irrefl 0)

/-- A first syndrome beyond the fourth makes a locator of that degree. -/
theorem Quiet.late {m : ℕ} (h5 : 5 ≤ m) (h8 : m ≤ 8) :
    ∀ (n u : ℕ) (rs : ReedSolomon), u + n = 8 → u < m → Quiet (u + 1) rs → Tables rs →
      (∀ q, 1 ≤ q → q ≤ 8 → ∃ x, Sym x ∧ rs.s q = rs.log x) → (∀ q, 1 ≤ q → q < m → rs.s q = -1) → rs.s m ≠ -1 →
      (berlekamp n u rs).2.l ((berlekamp n u rs).1 + 1) = m
  | 0, u, rs, hn, hu, _, _, _, _, _ => by omega
  | n + 1, u, rs, hn, hu, hq, ht, hx, h0, hm => by
    by_cases hum : u + 1 = m
    · subst hum
      have hsel := hq.selectRow_eq
      have hl : (berlekampStep (u + 1) rs).l (u + 1 + 1) = u + 1 := by
        unfold berlekampStep
        rw [if_neg (fun h => hm (hq.d_last.symm.trans h)), hsel]
        simp only
        split <;> simp [combineRow, hq.l_last, hq.l_zero]
      have hstop : ¬ (u + 1 < nn - kk ∧ (berlekampStep (u + 1) rs).l (u + 2) ≤ tt) := fun h => by
        have : u + 1 ≤ 4 := hl ▸ h.2
        omega
      simp only [berlekamp]
      rw [if_neg hstop]
      exact hl
    · have hlt : u + 1 < m := by omega
      have hq' := hq.step ht (by omega) (by omega) (h0 _ (by omega) hlt) (hx _ (by omega) (by omega))
      obtain ⟨d, elp, l, u_lu, e⟩ := berlekampStep_frame (u + 1) rs
      have hgo : u + 1 < nn - kk ∧ (berlekampStep (u + 1) rs).l (u + 2) ≤ tt := by
        refine ⟨?_, by rw [hq'.l_last]; exact Nat.zero_le _⟩
        simp only [nn_eq, kk_eq]
        omega
      simp only [berlekamp]
      rw [if_pos hgo]
      exact Quiet.late h5 h8 n (u + 1) _ (by omega) hlt hq' (ht.of_eq (by rw [e]) (by rw [e]))
        (by rw [e]; exact hx) (by rw [e]; exact h0) (by rw [e]; exact hm)

/-- Words whose first nonzero syndrome is beyond the fourth are among those that the decoder gives up on. -/
theorem Uncorrectable.late {rs : ReedSolomon} (ht : Tables rs) (hsym : ∀ i, Sym (rs.syndrome i)) {m : ℕ} (h5 : 5 ≤ m)
    (h8 : m ≤ 8) (h0 : ∀ q, 1 ≤ q → q < m → rs.syndrome q = 0) (hm : rs.syndrome m ≠ 0) : Uncorrectable rs := by
  obtain ⟨hflag, s, e, hs⟩ := syndromes_spec rs
  have hp : syndromes rs = (true, { rs with s := s }) := Prod.ext (hflag.2 ⟨m, by omega, h8, hm⟩) e
  have hlate := Quiet.late h5 h8 8 0 (initTable { rs with s := s }) rfl (by omega) (initTable_quiet _)
    (ht.of_eq rfl rfl) (fun q h1 hq => ⟨_, hsym q, hs q h1 hq⟩)
    (fun q h1 hq => (hs q h1 (by omega)).trans (by rw [h0 q h1 hq, ht.log_zero]))
    (fun h => hm ((ht.log_eq_neg_one (hsym m)).1 ((hs m (by omega) h8).symm.trans h)))
  refine .degree hp rfl fun h => ?_
  have : m ≤ 4 := hlate ▸ h
  omega

theorem decode_keeps (rs : ReedSolomon) : Keeps rs (Decode rs) := by
  rcases decode_cases rs with hs | hu | ⟨r, r', r'', u, count, hs, hf, hl, hr, hc⟩
  · have k := syndromes_keeps rs
    rcases hp : syndromes rs with ⟨flag, r⟩
    rw [hp] at hs k
    simp only at hs k
    subst hs
    rw [decode_clean hp]
    exact k.trans (toPolynomial_keeps r)
  · obtain ⟨r, k, -, hd⟩ := decode_uncorrectable hu
    rw [hd]
    exact k.trans (toPolynomial_keeps r)
  · have k1 := syndromes_keeps rs
    have k2 := findLocator_keeps r
    have k3 := findRoots_keeps u r'
    rw [hs] at k1
    rw [hf] at k2
    rw [hr] at k3
    rw [decode_corrected hs hf hl hr hc]
    have k4 : Keeps r'' (formEvaluator u r'') := ⟨rfl, rfl, rfl, rfl⟩
    exact ((k1.trans k2).trans k3).trans (k4.trans (correctErrors_keeps u _))

/-! ## Encoding a message -/

theorem setMessage_data (message : List ℤ) (rs : ReedSolomon) {i : ℕ} (hi : i < kk) :
    (SetMessage message rs).data i = message.getD i 0 := by
  have hcopy : ∀ data : ℕ → ℤ, forUp 0 message.length
      (fun i data => Function.update data i (message.getD i 0)) data =
      fun k => if 0 ≤ k ∧ k < message.length then message.getD k 0 else data k :=
    forUp_fill 0 message.length (fun i => message.getD i 0)
  have hpad : ∀ data : ℕ → ℤ, forUp message.length kk (fun i data => Function.update data i 0) data =
      fun k => if message.length ≤ k ∧ k < kk then 0 else data k := forUp_fill message.length kk (fun _ => 0)
  simp only [SetMessage]
  split
  · rw [hpad, hcopy]
    by_cases hlt : i < message.length
    · simp [hlt, show ¬ message.length ≤ i by omega]
    · rw [List.getD_eq_default _ _ (by omega)]
      exact if_pos ⟨by omega, hi⟩
  · rw [hcopy]
    exact if_pos ⟨Nat.zero_le _, by omega⟩

theorem setMessage_keeps (message : List ℤ) (rs : ReedSolomon) (h : Constructed rs) :
    Constructed (SetMessage message rs) := h

/-- The code word in the order of `recd`: parity in cells `0..7`, the padded message above. -/
def codeWord (rs : ReedSolomon) (j : ℕ) : ℤ := if j < 8 then rs.bb j else rs.data (j - 8)

/-- A word of `code` in the order of `recd`. -/
def received (msg_len : ℕ) (code : List ℤ) (j : ℕ) : ℤ :=
  if j < 8 then code.getD (msg_len + j) 0 else if j < 8 + msg_len then code.getD (j - 8) 0 else 0

theorem codeWord_sym {rs : ReedSolomon} (h : Constructed rs) (hd : ∀ i < kk, Sym (rs.data i)) {j : ℕ} (hj : j < 31) :
    Sym (codeWord (Encode rs) j) := by
  unfold codeWord
  split
  · exact (encode_spec alpha_root h hd).1 j (by omega)
  · exact hd (j - 8) (by simp only [kk_eq]; omega)

theorem codeWord_root {K : Type*} [Field K] [CharP K 2] {α : K} (hα : α ^ 5 = α ^ 2 + 1) {rs : ReedSolomon}
    (h : Constructed rs) (hd : ∀ i < kk, Sym (rs.data i)) {m : ℕ} (h1 : 1 ≤ m) (h8 : m ≤ 8) :
    ∑ j ∈ Finset.range 31, ofPoly α (codeWord (Encode rs) j) * (α ^ j) ^ m = 0 := by
  have hpow : ∀ j, (α ^ j) ^ m = (α ^ m) ^ j := fun j => by rw [← pow_mul, ← pow_mul, mul_comm]
  rw [show (31 : ℕ) = 8 + kk from rfl, Finset.sum_range_add]
  refine Eq.trans ?_ (encode_root hα h hd h1 h8)
  rw [add_comm]
  refine congrArg₂ (· + ·) (Finset.sum_congr rfl fun i _ => ?_) (Finset.sum_congr rfl fun k hk => ?_)
  · rw [codeWord, if_neg (by omega), Nat.add_sub_cancel_left, hpow]
    rfl
  · rw [codeWord, if_pos (Finset.mem_range.1 hk), hpow]

/-- Positions below `n` where two words differ. -/
def mismatches (n : ℕ) (xs ys : List ℤ) : ℕ := ((Finset.range n).filter fun i => xs.getD i 0 ≠ ys.getD i 0).card

theorem getCode_length (rs : ReedSolomon) : (GetCode rs).length = rs.msg_len + 8 := by
  simp [GetCode]

theorem getCode_getD (rs : ReedSolomon) {i : ℕ} (hi : i < rs.msg_len + 8) :
    (GetCode rs).getD i 0 = if i < rs.msg_len then rs.data i else rs.bb (i - rs.msg_len) := by
  simp only [GetCode, List.getD_eq_getElem?_getD]
  split
  · rename_i h
    rw [List.getElem?_append_left (by simpa using h)]
    simp [h]
  · rename_i h
    rw [List.getElem?_append_right (by simpa using h)]
    simp [show i - rs.msg_len < 8 by omega]

theorem getD_sym {xs : List ℤ} (h : ∀ x ∈ xs, Sym x) (i : ℕ) : Sym (xs.getD i 0) := by
  rcases Nat.lt_or_ge i xs.length with hi | hi
  · rw [List.getD_eq_getElem _ _ hi]
    exact h _ (List.getElem_mem hi)
  · rw [List.getD_eq_default _ _ hi]
    exact sym_zero

theorem getCode_sym {rs : ReedSolomon} (h : Constructed rs) (hlen : rs.msg_len ≤ kk)
    (hd : ∀ i < kk, Sym (rs.data i)) : ∀ x ∈ GetCode (Encode rs), Sym x := by
  intro x hx
  simp only [GetCode, List.mem_append, List.mem_map, List.mem_range] at hx
  rcases hx with ⟨i, hi, rfl⟩ | ⟨i, hi, rfl⟩
  · exact hd i (lt_of_lt_of_le hi hlen)
  · exact (encode_spec alpha_root h hd).1 i hi

/-! ## Decoding a message -/

theorem setCode_spec (rs : ReedSolomon) (code : List ℤ) (hlen : code.length < kk)
    (hmsg : code.length = rs.msg_len + 8) :
    ∃ r, SetCode code rs = some r ∧ Keeps rs r ∧ ∀ j < 31, r.recd j = rs.log (received rs.msg_len code j) := by
  have hk : code.length < kk ∧ rs.msg_len < kk := ⟨hlen, by omega⟩
  have hn : ¬ code.length < rs.msg_len + (nn - kk) := by
    simp only [show nn - kk = 8 from rfl]
    omega
  refine ⟨_, (if_pos hk).trans (if_neg hn), ⟨rfl, rfl, rfl, rfl⟩, fun j hj => ?_⟩
  simp only
  rw [forUp_map 0 nn (fun _ x => rs.log x)]
  refine (if_pos ⟨Nat.zero_le _, hj⟩).trans (congrArg rs.log ?_)
  rw [forUp_fill (rs.msg_len + (nn - kk)) nn (fun _ => (0 : ℤ)), forUp_fill 0 (nn - kk)
    (fun i => code.getD (rs.msg_len + i) 0)]
  have hmid : ∀ (a : ℕ → ℤ) n, forUp 0 n
      (fun i recd => Function.update recd (nn - kk + i) (code.getD i 0)) a =
        fun j => if 8 ≤ j ∧ j < 8 + n then code.getD (j - 8) 0 else a j := fun a n => by
    funext j
    refine forUp_rule (P := fun n (b : ℕ → ℤ) => ∀ j, b j = if 8 ≤ j ∧ j < 8 + n then code.getD (j - 8) 0 else a j)
      (Nat.zero_le n) (fun j => by rw [if_neg (by omega)]) ?_ j
    intro i b _ _ h j
    by_cases hji : j = 8 + i
    · subst hji
      rw [show nn - kk + i = 8 + i from rfl, Function.update_self, if_pos ⟨by omega, by omega⟩,
        Nat.add_sub_cancel_left]
    · have hiff : (8 ≤ j ∧ j < 8 + (i + 1)) ↔ (8 ≤ j ∧ j < 8 + i) := by omega
      rw [show nn - kk + i = 8 + i from rfl, Function.update_of_ne hji, h j]
      simp only [hiff]
  rw [hmid]
  simp only [nn_eq, received]
  by_cases h1 : j < 8
  · simp [h1, show ¬ rs.msg_len + 8 ≤ j by omega, show ¬ 8 ≤ j by omega]
  · by_cases h2 : j < 8 + rs.msg_len
    · simp [h1, h2, show ¬ rs.msg_len + 8 ≤ j by omega, show 8 ≤ j by omega]
    · simp [h1, h2, show rs.msg_len + 8 ≤ j by omega, hj]

theorem getMessage_eq {rs : ReedSolomon} {message : List ℤ} (hlen : rs.msg_len = message.length)
    (h : ∀ i < message.length, rs.recd (8 + i) = message.getD i 0) : GetMessage rs = message := by
  refine List.ext_getElem (by simp [GetMessage, hlen]) fun i h1 h2 => ?_
  have := h i h2
  rw [List.getD_eq_getElem _ _ h2] at this
  simpa [GetMessage] using this

theorem received_sym {code : List ℤ} (h : ∀ x ∈ code, Sym x) (n j : ℕ) : Sym (received n code j) := by
  unfold received
  split
  · exact getD_sym h _
  · split
    · exact getD_sym h _
    · exact sym_zero

/-- The two layouts count the same differences. -/
theorem mismatches_received {n : ℕ} {c : ℕ → ℤ} {code word : List ℤ} (hn : n + 8 ≤ 31)
    (hword : ∀ j < n + 8, c j = received n word j) (hpad : ∀ j, n + 8 ≤ j → j < 31 → c j = 0) :
    ((Finset.range 31).filter fun j => c j ≠ received n code j).card = mismatches (n + 8) code word := by
  -- the positions of `recd` past the word agree
  have hlt : ∀ j < 31, c j ≠ received n code j → j < n + 8 := fun j hj hne => by
    by_contra hge
    exact hne (by rw [hpad j (by omega) hj, received, if_neg (by omega), if_neg (by omega)])
  refine Finset.card_bij (fun j _ => if j < 8 then n + j else j - 8) ?_ ?_ ?_
  · intro j hj
    obtain ⟨hj, hne⟩ := Finset.mem_filter.1 hj
    have hj := hlt j (Finset.mem_range.1 hj) hne
    rw [hword j hj] at hne
    refine Finset.mem_filter.2 ⟨Finset.mem_range.2 (by split <;> omega), ?_⟩
    unfold received at hne
    by_cases h8 : j < 8
    · rw [if_pos h8, if_pos h8] at hne
      rw [if_pos h8]
      exact hne.symm
    · rw [if_neg h8, if_neg h8, if_pos (by omega), if_pos (by omega)] at hne
      rw [if_neg h8]
      exact hne.symm
  · intro i hi j hj h
    obtain ⟨hi, hnei⟩ := Finset.mem_filter.1 hi
    obtain ⟨hj, hnej⟩ := Finset.mem_filter.1 hj
    have := hlt i (Finset.mem_range.1 hi) hnei
    have := hlt j (Finset.mem_range.1 hj) hnej
    split at h <;> split at h <;> omega
  · intro i hi
    obtain ⟨hi, hne⟩ := Finset.mem_filter.1 hi
    have hi := Finset.mem_range.1 hi
    by_cases hin : i < n
    · refine ⟨8 + i, Finset.mem_filter.2 ⟨Finset.mem_range.2 (by omega), ?_⟩, ?_⟩
      · rw [hword _ (by omega), received, received, if_neg (by omega), if_pos (by omega), if_neg (by omega),
          if_pos (by omega), Nat.add_sub_cancel_left]
        exact hne.symm
      · rw [if_neg (by omega), Nat.add_sub_cancel_left]
    · refine ⟨i - n, Finset.mem_filter.2 ⟨Finset.mem_range.2 (by omega), ?_⟩, ?_⟩
      · rw [hword _ (by omega), received, received, if_pos (by omega), if_pos (by omega),
          show n + (i - n) = i by omega]
        exact hne.symm
      · rw [if_pos (by omega)]
        omega

/-- A received word that differs from the code word of a message in at most four places gives the message back, as
long as `SetCode` takes it. -/
theorem code_corrects (enc dec : ReedSolomon) (he : Constructed enc) (hd : Constructed dec) {message code : List ℤ}
    (hm : dec.msg_len = message.length) (hlen : message.length + 8 < kk) (hsym : ∀ x ∈ message, Sym x)
    (hcode : code.length = message.length + 8) (hcs : ∀ x ∈ code, Sym x)
    (herr : mismatches (message.length + 8) code (GetCode (Encode (SetMessage message enc))) ≤ 4) :
    ∃ r, SetCode code dec = some r ∧ Keeps dec (Decode r) ∧ GetMessage (Decode r) = message := by
  have hk : kk = 23 := rfl
  obtain ⟨r, hset, hkeep, hrecd⟩ := setCode_spec dec code (by omega) (by omega)
  rw [hm] at hrecd
  -- the code word
  have he' : Constructed (SetMessage message enc) := setMessage_keeps message enc he
  have hdata : ∀ i < kk, Sym ((SetMessage message enc).data i) := fun i hi => by
    rw [setMessage_data message enc hi]
    exact getD_sym hsym i
  have hcdata : ∀ i < 23, codeWord (Encode (SetMessage message enc)) (8 + i) = message.getD i 0 := fun i hi => by
    rw [codeWord, if_neg (by omega), Nat.add_sub_cancel_left]
    exact setMessage_data message enc hi
  have hword : ∀ j < message.length + 8, codeWord (Encode (SetMessage message enc)) j =
      received message.length (GetCode (Encode (SetMessage message enc))) j := fun j hj => by
    have hl : (Encode (SetMessage message enc)).msg_len = message.length := rfl
    unfold received codeWord
    by_cases h8 : j < 8
    · rw [if_pos h8, if_pos h8, getCode_getD _ (by omega), if_neg (by omega), hl, Nat.add_sub_cancel_left]
    · rw [if_neg h8, if_neg h8, if_pos (by omega), getCode_getD _ (by omega), if_pos (by omega)]
  have hpad : ∀ j, message.length + 8 ≤ j → j < 31 → codeWord (Encode (SetMessage message enc)) j = 0 :=
    fun j h1 h2 => by
      obtain ⟨i, rfl⟩ : ∃ i, j = 8 + i := ⟨j - 8, by omega⟩
      rw [hcdata i (by omega), List.getD_eq_default _ _ (by omega)]
  have hdec : ∀ j < 31, (Decode r).recd j = codeWord (Encode (SetMessage message enc)) j := fun j hj =>
    decode_corrects alpha_root (hkeep.constructed hd).tables (fun j hj => codeWord_sym he' hdata hj)
      (fun j _ => received_sym hcs _ j) (fun m h1 h8 => codeWord_root alpha_root he' hdata h1 h8)
      (by rw [mismatches_received (by omega) hword hpad]; exact herr)
      (fun j hj => by rw [hrecd j hj, log, log, hkeep.index_of]) hj
  refine ⟨r, hset, hkeep.trans (decode_keeps r), getMessage_eq ?_ fun i hi => ?_⟩
  · rw [(decode_keeps r).msg_len, hkeep.msg_len, hm]
  · rw [hdec _ (by omega), hcdata i (by omega)]

/-! ## The codec of a decoder -/

theorem setCode_keeps {code : List ℤ} {rs r : ReedSolomon} (h : SetCode code rs = some r) : Keeps rs r := by
  unfold SetCode at h
  split at h
  · split at h
    · exact absurd h (by simp)
    · obtain rfl := Option.some.inj h
      exact ⟨rfl, rfl, rfl, rfl⟩
  · obtain rfl := Option.some.inj h
    exact .rfl'

theorem encode_constructed {rs : ReedSolomon} (h : Constructed rs) : Constructed (Encode rs) := by
  obtain ⟨mem, h1, h2, h3⟩ := h
  exact ⟨mem, h1, h2, h3⟩

/-- A `ReedSolomon` object with the tables that its constructor computed: no call touches them. -/
def Codec : Type := { rs : ReedSolomon // Constructed rs }

namespace Codec

def new (mem : ReedSolomon) : Codec := ⟨ReedSolomon.new mem, constructed_new mem⟩

instance : Inhabited Codec := ⟨new default⟩

/-- `SetMessage(message); Encode(); GetCode(message)` -/
def send (message : List ℤ) (c : Codec) : List ℤ × Codec :=
  let rs := Encode (SetMessage message c.1)
  (GetCode rs, ⟨rs, encode_constructed (setMessage_keeps message c.1 c.2)⟩)

/-- `msg_len = n; SetCode(code); Decode()` -/
def receive (n : ℕ) (code : List ℤ) (c : Codec) : Option Codec :=
  (SetCode code { c.1 with msg_len := n }).pmap (fun r h => ⟨Decode r, h⟩) fun r h =>
    (decode_keeps r).constructed ((setCode_keeps h).constructed c.2)

theorem receive_some {n : ℕ} {code : List ℤ} {c : Codec} {r : ReedSolomon}
    (h : SetCode code { c.1 with msg_len := n } = some r) :
    ∃ c', receive n code c = some c' ∧ c'.1 = Decode r := by
  exact ⟨⟨Decode r, (decode_keeps r).constructed ((setCode_keeps h).constructed c.2)⟩,
    Option.pmap_eq_some_iff.2 ⟨r, _, h, rfl⟩, rfl⟩

theorem receive_inv {n : ℕ} {code : List ℤ} {c c' : Codec} (h : receive n code c = some c') :
    ∃ r, SetCode code { c.1 with msg_len := n } = some r ∧ c'.1 = Decode r := by
  obtain ⟨r, _, hr, rfl⟩ := Option.pmap_eq_some_iff.1 h
  exact ⟨r, hr, rfl⟩

theorem receive_msg_len {n : ℕ} {code : List ℤ} {c c' : Codec} (h : receive n code c = some c') : c'.1.msg_len = n := by
  obtain ⟨r, hr, hc⟩ := receive_inv h
  rw [hc, (decode_keeps r).msg_len, (setCode_keeps hr).msg_len]

end Codec

end ReedSolomon

end Undertone
