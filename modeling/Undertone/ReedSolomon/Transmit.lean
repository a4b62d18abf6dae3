import Undertone.ReedSolomon.Checked

/-!
# `SetMessage` and `Encode` with their arrays as long as the constructor makes them

The sending half of the codec once more, with every access compared with the length of its array. Nothing checks the
message: one that is longer than `kk` is written past the end of `data`, and a symbol outside `0..31` is looked up
outside the tables. The run is that of the unchecked codec for all other messages (`send_eq`), and only for these
(`send_none`).
-/

namespace Undertone

open CountedLoop BoundedArray

namespace ReedSolomon

/-- Exclusive or with a symbol leaves what is no symbol outside the symbols. -/
theorem sym_xor_iff {x y : ℤ} (hy : Sym y) : Sym (Int.xor x y) ↔ Sym x := by
  obtain ⟨n, rfl⟩ := Int.eq_ofNat_of_zero_le hy.1
  constructor
  · intro h
    cases x with
    | ofNat m =>
      have hback : Int.xor (Int.xor (m : ℤ) n) n = m := by
        have hxor : Int.xor (Int.xor (m : ℤ) n) n = ((m ^^^ n ^^^ n : ℕ) : ℤ) := rfl
        rw [hxor, Nat.xor_assoc, Nat.xor_self, Nat.xor_zero]
      have hsym := Sym.xor (x := Int.xor (m : ℤ) n) h hy
      rw [hback] at hsym
      exact hsym
    | negSucc m => exact absurd h.1 (not_le.2 (Int.negSucc_lt_zero _))
  · exact fun h => h.xor hy

namespace Checked

/-- `if (msg_len < kk) memset(data + msg_len, 0, ...)` -/
def pad (msg_len : ℕ) (data : ℕ → ℤ) : Option (ℕ → ℤ) :=
  if msg_len < kk then forUpM msg_len kk (fun i data => put kk data i 0) data else some data

def SetMessage (message : List ℤ) (rs : ReedSolomon) : Option ReedSolomon := do
  let data ← forUpM 0 message.length (fun i data => put kk data i (message.getD i 0)) rs.data
  let data ← pad message.length data
  return { rs with msg_len := message.length, data := data }

/-- One round of the feedback shift register. -/
def shiftRegister (rs : ReedSolomon) (i : ℕ) (bb : ℕ → ℤ) : Option (ℕ → ℤ) := do
  let x ← get kk rs.data i
  let y ← get (nn - kk) bb (nn - kk - 1 : ℕ)
  let feedback ← log rs (Int.xor x y)
  if feedback ≠ -1 then
    let bb ← forDownM 1 (nn - kk) (fun j bb => do
      let gj ← get (nn - kk + 1) rs.gg j
      let b ← get (nn - kk) bb (j - 1 : ℕ)
      if gj ≠ -1 then put (nn - kk) bb j (Int.xor b (← exp rs (gj + feedback)))
      else put (nn - kk) bb j b) bb
    let g0 ← get (nn - kk + 1) rs.gg 0
    put (nn - kk) bb 0 (← exp rs (g0 + feedback))
  else
    let bb ← forDownM 1 (nn - kk) (fun j bb => do
      let b ← get (nn - kk) bb (j - 1 : ℕ)
      put (nn - kk) bb j b) bb
    put (nn - kk) bb 0 0

def Encode (rs : ReedSolomon) : Option ReedSolomon := do
  let bb ← forUpM 0 (nn - kk) (fun i bb => put (nn - kk) bb i 0) rs.bb
  let bb ← forDownM 0 kk (shiftRegister rs) bb
  return { rs with bb := bb }

def GetCode (rs : ReedSolomon) : Option (List ℤ) := do
  let code ← forUpM 0 rs.msg_len (fun i code => do return code ++ [← get kk rs.data i]) []
  forUpM 0 (nn - kk) (fun i code => do return code ++ [← get (nn - kk) rs.bb i]) code

/-- `SetMessage(message); Encode(); GetCode(message)` -/
def send (message : List ℤ) (rs : ReedSolomon) : Option (List ℤ × ReedSolomon) := do
  let rs ← SetMessage message rs
  let rs ← Encode rs
  let code ← GetCode rs
  return (code, rs)

/-! ## Messages that fit -/

section Message

variable {rs : ReedSolomon} {message : List ℤ}

theorem pad_eq (n : ℕ) (data : ℕ → ℤ) : pad n data = some
    (if n < kk then forUp n kk (fun i data => Function.update data i 0) data else data) := by
  unfold pad
  split
  · exact forUpM_rule (fun _ _ => True) trivial fun i data _ hi _ => ⟨put_cast hi data _, trivial⟩
  · rfl

theorem setMessage_eq (h : message.length ≤ kk) (rs : ReedSolomon) :
    SetMessage message rs = some (ReedSolomon.SetMessage message rs) := by
  have hwrite : forUpM 0 message.length (fun i data => put kk data i (message.getD i 0)) rs.data =
      some (forUp 0 message.length (fun i data => Function.update data i (message.getD i 0)) rs.data) :=
    forUpM_rule (fun _ _ => True) trivial fun i data _ hi _ => ⟨put_cast (by omega) data _, trivial⟩
  unfold SetMessage
  rw [hwrite, Option.bind_eq_bind, Option.bind_some, pad_eq]
  rfl

theorem setMessage_none (h : kk < message.length) (rs : ReedSolomon) : SetMessage message rs = none := by
  by_contra hsome
  obtain ⟨rs', hrs'⟩ := Option.ne_none_iff_exists'.1 hsome
  obtain ⟨data, hdata, -⟩ := Option.bind_eq_some_iff.1 hrs'
  obtain ⟨t, t', hround⟩ := forUpM_rounds hdata (Nat.zero_le kk) h
  exact Nat.lt_irrefl kk (put_inv hround)

theorem shiftRegister_eq (h : Constructed rs) {i : ℕ} (hi : i < kk) (hd : Sym (rs.data i)) {bb : ℕ → ℤ}
    (hb : ∀ k < 8, Sym (bb k)) : shiftRegister rs i bb = some (ReedSolomon.shiftRegister rs i bb) := by
  obtain ⟨hg, -⟩ := h.generator alpha_root
  have hg0 := (h.gg_ends alpha_root).1
  have hx := hd.xor (hb 7 (by omega))
  have hn : nn - kk = 8 := rfl
  have hput : ∀ (bb : ℕ → ℤ) v, put (nn - kk) bb 0 v = some (Function.update bb 0 v) :=
    put_cast (show 0 < nn - kk by decide)
  unfold shiftRegister ReedSolomon.shiftRegister
  simp only [show nn - kk - 1 = 7 from rfl]
  rw [get_cast hi, Option.bind_eq_bind, Option.bind_some, get_cast (by omega), Option.bind_some, log_eq rs hx,
    Option.bind_some]
  have hidx := (h.tables.log_idx hx).1
  generalize rs.log (Int.xor (rs.data i) (bb 7)) = feedback at hidx
  by_cases hf : feedback = -1
  · have hloop : forDownM 1 (nn - kk) (fun j bb => do
        let b ← get (nn - kk) bb (j - 1 : ℕ)
        put (nn - kk) bb j b) bb =
        some (forDown 1 (nn - kk) (fun j bb => Function.update bb j (bb (j - 1))) bb) := by
      refine forDownM_rule (fun _ _ => True) trivial fun j b _ hj _ => ⟨?_, trivial⟩
      rw [get_cast (by omega), Option.bind_eq_bind, Option.bind_some, put_cast hj]
    rw [if_neg (not_not.2 hf), if_neg (not_not.2 hf)]
    exact (congrArg (Option.bind · _) hloop).trans (hput _ _)
  · have hloop : forDownM 1 (nn - kk) (fun j bb => do
        let gj ← get (nn - kk + 1) rs.gg j
        let b ← get (nn - kk) bb (j - 1 : ℕ)
        if gj ≠ -1 then put (nn - kk) bb j (Int.xor b (← exp rs (gj + feedback)))
        else put (nn - kk) bb j b) bb =
        some (forDown 1 (nn - kk) (fun j bb =>
          if rs.gg j ≠ -1 then Function.update bb j (Int.xor (bb (j - 1)) (rs.exp (rs.gg j + feedback)))
          else Function.update bb j (bb (j - 1))) bb) := by
      refine forDownM_rule (fun _ _ => True) trivial fun j b _ hj _ => ⟨?_, trivial⟩
      have hgj := (hg j (by omega)).1
      rw [get_cast (by omega), Option.bind_eq_bind, Option.bind_some, get_cast (by omega), Option.bind_some]
      by_cases h0 : rs.gg j = -1
      · rw [if_neg (not_not.2 h0), if_neg (not_not.2 h0), put_cast hj]
      · rw [if_pos h0, if_pos h0, exp_eq rs (by omega), Option.bind_some, put_cast hj]
    have hg0' := (hg 0 (by omega)).1
    have hget : get (nn - kk + 1) rs.gg 0 = some (rs.gg 0) := get_cast (Nat.succ_pos _) rs.gg
    rw [if_pos hf, if_pos hf]
    refine (congrArg (Option.bind · _) hloop).trans ?_
    rw [Option.bind_some, hget, Option.bind_some, exp_eq rs (by omega), Option.bind_some, hput]

/-- A symbol outside `0..31` is looked up outside the table. -/
theorem shiftRegister_none {i : ℕ} (hi : i < kk) (hd : ¬ Sym (rs.data i)) {bb : ℕ → ℤ} (hb : ∀ k < 8, Sym (bb k)) :
    shiftRegister rs i bb = none := by
  have hx : ¬ Sym (Int.xor (rs.data i) (bb 7)) := fun h => hd ((sym_xor_iff (hb 7 (by omega))).1 h)
  have hlog : log rs (Int.xor (rs.data i) (bb 7)) = none := if_neg hx
  unfold shiftRegister
  rw [get_cast hi, Option.bind_eq_bind, Option.bind_some, get_cast (by decide), Option.bind_eq_bind, Option.bind_some]
  exact congrArg (Option.bind · _) hlog

theorem clear_eq (bb : ℕ → ℤ) : forUpM 0 (nn - kk) (fun i bb => put (nn - kk) bb i 0) bb =
    some (forUp 0 (nn - kk) (fun i bb => Function.update bb i 0) bb) :=
  forUpM_rule (fun _ _ => True) trivial fun _ bb _ hi _ => ⟨put_cast hi bb 0, trivial⟩

theorem clear_sym (bb : ℕ → ℤ) :
    ∀ k < 8, Sym (forUp 0 (nn - kk) (fun i bb => Function.update bb i 0) bb k) := fun k hk => by
  have hzero : forUp 0 (nn - kk) (fun i bb => Function.update bb i 0) bb k = 0 := by
    rw [forUp_fill 0 _ fun _ => (0 : ℤ)]
    exact if_pos ⟨Nat.zero_le k, hk⟩
  rw [hzero]
  exact sym_zero

/-- A round keeps the parity cells symbols. -/
theorem shiftRegister_sym (h : Constructed rs) {i : ℕ} (hd : Sym (rs.data i)) {bb : ℕ → ℤ} (hb : ∀ k < 8, Sym (bb k)) :
    ∀ k < 8, Sym (ReedSolomon.shiftRegister rs i bb k) := fun _ hk =>
  (shiftRegister_value alpha_root h.tables (fun k hk => (h.generator alpha_root).1 k (by omega))
    (h.gg_ends alpha_root).1 hd hb hk).1

theorem encode_eq (h : Constructed rs) (hd : ∀ i < kk, Sym (rs.data i)) :
    Encode rs = some (ReedSolomon.Encode rs) := by
  have hloop := forDownM_rule (a := 0) (b := kk) (f := ReedSolomon.shiftRegister rs) (g := shiftRegister rs)
    (fun _ bb => ∀ k < 8, Sym (bb k)) (clear_sym rs.bb) fun i bb _ hi hb =>
      ⟨shiftRegister_eq h hi (hd i hi) hb, shiftRegister_sym h (hd i hi) hb⟩
  unfold Encode
  rw [clear_eq, Option.bind_eq_bind, Option.bind_some]
  exact congrArg (Option.bind · _) hloop

theorem encode_none (h : Constructed rs) (hd : ∃ i < kk, ¬ Sym (rs.data i)) : Encode rs = none := by
  obtain ⟨i, hi, hbad⟩ := hd
  have hloop := forDownM_stops (a := 0) (b := kk) (f := ReedSolomon.shiftRegister rs) (g := shiftRegister rs)
    (fun i => Sym (rs.data i)) (fun _ bb => ∀ k < 8, Sym (bb k)) (clear_sym rs.bb) (fun i bb _ hi hb =>
      ⟨fun hd => ⟨shiftRegister_eq h hi hd hb, shiftRegister_sym h hd hb⟩, fun hd => shiftRegister_none hi hd hb⟩)
    ⟨i, Nat.zero_le i, hi, hbad⟩
  unfold Encode
  rw [clear_eq, Option.bind_eq_bind, Option.bind_some]
  exact congrArg (Option.bind · _) hloop

theorem getCode_eq (h : rs.msg_len ≤ kk) : GetCode rs = some (ReedSolomon.GetCode rs) := by
  have hread : ∀ (n size : ℕ) (a : ℕ → ℤ) (code : List ℤ), n ≤ size →
      forUpM 0 n (fun i code => do return code ++ [← get size a i]) code = some (code ++ (List.range n).map a) := by
    intro n size a code hn
    have hround : forUpM 0 n (fun i code => do return code ++ [← get size a i]) code =
        some (forUp 0 n (fun i code => code ++ [a i]) code) :=
      forUpM_rule (fun _ _ => True) trivial fun i code _ hi _ =>
        ⟨congrArg (Option.bind · _) (get_cast (show i < size by omega) a), trivial⟩
    rw [hround]
    refine congrArg some (forUp_rule (fun i l => l = code ++ (List.range i).map a) (Nat.zero_le n) ?_ ?_)
    · rw [List.range_zero, List.map_nil, List.append_nil]
    · rintro i l - - rfl
      rw [List.range_succ, List.map_append, List.append_assoc, List.map_singleton]
  unfold GetCode
  rw [hread _ _ _ _ h, Option.bind_eq_bind, Option.bind_some, hread _ _ _ _ le_rfl, List.nil_append]
  rfl

/-- A message of at most `kk` symbols is sent as the unchecked codec sends it. -/
theorem send_eq (hlen : message.length ≤ kk) (hsym : ∀ x ∈ message, Sym x) (c : Codec) :
    send message c.1 = some ((c.send message).1, (c.send message).2.1) := by
  have hdata : ∀ i < kk, Sym ((ReedSolomon.SetMessage message c.1).data i) := fun i hi => by
    rw [setMessage_data message c.1 hi]
    by_cases hlt : i < message.length
    · rw [List.getD_eq_getElem _ _ hlt]
      exact hsym _ (List.getElem_mem hlt)
    · rw [List.getD_eq_default _ _ (not_lt.1 hlt)]
      exact sym_zero
  have hcode : GetCode (ReedSolomon.Encode (ReedSolomon.SetMessage message c.1)) = some _ := getCode_eq hlen
  unfold send
  rw [setMessage_eq hlen, Option.bind_eq_bind, Option.bind_some, encode_eq (setMessage_keeps message c.1 c.2) hdata,
    Option.bind_eq_bind, Option.bind_some, hcode]
  rfl

theorem send_none (h : ¬ (message.length ≤ kk ∧ ∀ x ∈ message, Sym x)) (c : Codec) : send message c.1 = none := by
  unfold send
  by_cases hlen : message.length ≤ kk
  · have hbad : ∃ i < kk, ¬ Sym ((ReedSolomon.SetMessage message c.1).data i) := by
      by_contra hall
      refine h ⟨hlen, fun x hx => ?_⟩
      obtain ⟨i, hi, rfl⟩ := List.getElem_of_mem hx
      by_contra hsym
      refine hall ⟨i, by omega, ?_⟩
      rwa [setMessage_data message c.1 (by omega), List.getD_eq_getElem _ _ hi]
    rw [setMessage_eq hlen, Option.bind_eq_bind, Option.bind_some,
      encode_none (setMessage_keeps message c.1 c.2) hbad]
    rfl
  · rw [setMessage_none (not_le.1 hlen)]
    rfl

end Message

end Checked

/-- The codec that a checked call leaves. -/
def Codec.sendChecked (message : List ℤ) (c : Codec) : Option (List ℤ × Codec) :=
  (Checked.send message c.1).pmap (fun p h => (p.1, ⟨p.2, h⟩)) fun p hp => by
    by_cases h : message.length ≤ kk ∧ ∀ x ∈ message, Sym x
    · rw [Checked.send_eq h.1 h.2 c] at hp
      obtain rfl := Option.some.inj hp
      exact (c.send message).2.2
    · rw [Checked.send_none h c] at hp
      exact absurd hp (by simp)

theorem Codec.sendChecked_eq {message : List ℤ} (hlen : message.length ≤ kk) (hsym : ∀ x ∈ message, Sym x) (c : Codec) :
    c.sendChecked message = some (c.send message) :=
  Option.pmap_eq_some_iff.2 ⟨_, (c.send message).2.2, Checked.send_eq hlen hsym c, rfl⟩

theorem Codec.sendChecked_none {message : List ℤ} (h : ¬ (message.length ≤ kk ∧ ∀ x ∈ message, Sym x)) (c : Codec) :
    c.sendChecked message = none :=
  Option.pmap_eq_none_iff.2 (Checked.send_none h c)

/-- What is sent are symbols. -/
theorem Codec.sendChecked_sym {message code : List ℤ} {c c' : Codec}
    (h : c.sendChecked message = some (code, c')) : ∀ x ∈ code, Sym x := by
  by_cases hmessage : message.length ≤ kk ∧ ∀ x ∈ message, Sym x
  · rw [sendChecked_eq hmessage.1 hmessage.2] at h
    obtain rfl : GetCode (Encode (SetMessage message c.1)) = code := congrArg Prod.fst (Option.some.inj h)
    refine getCode_sym (setMessage_keeps message c.1 c.2) hmessage.1 fun i hi => ?_
    rw [setMessage_data message c.1 hi]
    exact getD_sym hmessage.2 i
  · rw [sendChecked_none hmessage] at h
    exact absurd h (by simp)

end ReedSolomon

end Undertone
