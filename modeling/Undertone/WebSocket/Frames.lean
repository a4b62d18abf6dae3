import Undertone.WebSocket.Defs
import Mathlib.Data.Nat.Bitwise
import Mathlib.Tactic.NormNum
import Mathlib.Tactic.Ring

/-!
# Frames read back

A frame that one side writes is read back by the other side: the length in each of its three forms, the mask, the
payload. What arrives may be cut anywhere, and a part of it may have come with the handshake; on the server that part
then stays one buffer behind, on the client it is used up first.
-/

namespace Undertone

namespace SimpleWeb

/-! ## Lengths -/

theorem lengthBytes_succ (n length : ℕ) :
    lengthBytes (n + 1) length = UInt8.ofNat ((length >>> (8 * n)) % 256) :: lengthBytes n length := by
  simp [lengthBytes, List.range_succ]

@[simp] theorem lengthBytes_length (n length : ℕ) : (lengthBytes n length).length = n := by
  simp [lengthBytes]

/-- A length is read back as far as its bytes go. -/
theorem lengthOf_lengthBytes {n : ℕ} (hn : n ≤ 8) (length : ℕ) :
    lengthOf (lengthBytes n length) = length % 256 ^ n := by
  induction n with
  | zero => simp [lengthBytes, lengthOf, Nat.mod_one]
  | succ n ih =>
    have hbyte : (UInt8.ofNat (length >>> (8 * n) % 256)).toNat = length / 256 ^ n % 256 := by
      rw [Nat.shiftRight_eq_div_pow, pow_mul, UInt8.toNat_ofNat', Nat.mod_eq_of_lt (Nat.mod_lt _ (by decide))]
      norm_num
    have hlt : length % 256 ^ (n + 1) < sizeMod := by
      refine lt_of_lt_of_le (Nat.mod_lt _ (Nat.pow_pos (by decide))) ?_
      calc 256 ^ (n + 1) ≤ 256 ^ 8 := Nat.pow_le_pow_right (by decide) hn
        _ = sizeMod := by rfl
    rw [lengthBytes_succ, lengthOf, ih (by omega), hbyte, lengthBytes_length, Nat.shiftLeft_eq, pow_mul,
      show 2 ^ 8 = 256 from rfl, ← Nat.mod_eq_of_lt hlt, Nat.mod_pow_succ]
    congr 1
    ring

/-! ## Masks -/

@[simp] theorem maskBytes_length (mask bytes : List UInt8) : (maskBytes mask bytes).length = bytes.length := by
  simp [maskBytes]

/-- The mask is taken off by putting it on again. -/
@[simp] theorem maskBytes_maskBytes (mask bytes : List UInt8) : maskBytes mask (maskBytes mask bytes) = bytes := by
  refine List.ext_getElem (by simp) fun i hi _ => ?_
  simp [maskBytes, UInt8.xor_assoc]

/-! ## The second byte -/

/-- Lengths below 126 stand in the second byte. -/
theorem second_byte {length : ℕ} (h : length < 126) :
    (UInt8.ofNat length < 128 ∧ UInt8.ofNat length &&& 127 ≠ 126 ∧ UInt8.ofNat length &&& 127 ≠ 127 ∧
      (UInt8.ofNat length &&& 127).toNat = length) ∧
    (¬ UInt8.ofNat length + 128 < 128 ∧ (UInt8.ofNat length + 128) &&& 127 ≠ 126 ∧
      (UInt8.ofNat length + 128) &&& 127 ≠ 127 ∧ ((UInt8.ofNat length + 128) &&& 127).toNat = length) := by
  revert h
  revert length
  decide

/-! ## Streams cut anywhere -/

/-- A buffer `L` in front of a stream: when as many symbols have arrived as `a` has, `a` can be taken from the front,
and a buffer of the same size is left. -/
theorem lag {L bs a b L' : List UInt8} (h : L ++ bs = a ++ (b ++ L')) (hL : L.length = L'.length) :
    ∃ bs1 bs2 L1, bs = bs1 ++ bs2 ∧ bs1.length = a.length ∧ L ++ bs1 = a ++ L1 ∧ L1 ++ bs2 = b ++ L' ∧
      L1.length = L.length := by
  have hlen := congrArg List.length h
  simp only [List.length_append] at hlen
  have hbs : bs = bs.take a.length ++ bs.drop a.length := (List.take_append_drop _ _).symm
  have htake : (bs.take a.length).length = a.length := List.length_take_of_le (by omega)
  rw [hbs, ← List.append_assoc] at h
  have hpre : a <+: L ++ bs.take a.length :=
    List.prefix_of_prefix_length_le (h ▸ List.prefix_append a _) (List.prefix_append _ _) (by simp; omega)
  obtain ⟨L1, hL1⟩ := hpre
  refine ⟨_, _, L1, hbs, htake, hL1.symm, ?_, ?_⟩
  · rw [← hL1, List.append_assoc] at h
    exact List.append_cancel_left h
  · have := congrArg List.length hL1
    simp only [List.length_append] at this
    omega

/-! ## The server reads a frame of the client -/

namespace Server

variable {max_message_size : ℕ} {S : Session} {op : UInt8} {L m L' bs mask : List UInt8}

/-- A connection that has read a frame. -/
def Connection.after (op : UInt8) (m L : List UInt8) (S : Session) : Connection :=
  { session := (receive op m S).2.1, streambuf := L,
    reading := if (receive op m S).2.2 then .header else .stopped }

/-- The mask and the payload, after the header. -/
theorem reads_content (hmask : mask.length = 4) (hm : 4 + m.length < sizeMod)
    (h : L ++ bs = (mask ++ maskBytes mask m) ++ L') (hL : L.length = L'.length) :
    Reads (reader max_message_size) ⟨S, L, .content m.length op⟩ bs (receive op m S).1 (.after op m L' S) := by
  have hlen := congrArg List.length h
  simp only [List.length_append, maskBytes_length] at hlen
  have hdata : getBytes m.length (((mask ++ maskBytes mask m) ++ L').drop 4) = maskBytes mask m := by
    rw [List.append_assoc, List.drop_left' hmask,
      getBytes_of_le (by rw [List.length_append, maskBytes_length]; omega), List.take_left' (maskBytes_length _ _)]
  have hrest : ((mask ++ maskBytes mask m) ++ L').drop (4 + m.length) = L' := List.drop_left' (by simp [hmask])
  have htake : ((mask ++ maskBytes mask m) ++ L').take 4 = mask := by rw [List.append_assoc, List.take_left' hmask]
  refine Reads.one ?_ ?_
  · rw [reader_want]
    exact congrArg some ((Nat.mod_eq_of_lt hm).trans (by omega))
  · rw [reader_got, got]
    simp only [h]
    rw [if_neg (by simp only [List.length_append, maskBytes_length, hmask]; omega), hdata, hrest, htake,
      maskBytes_maskBytes]
    rfl

/-- A message that is not too big is read. -/
theorem read_message_content_fits {length : ℕ} (hmax : max_message_size < sizeMod)
    (hsize : length + S.kept ≤ max_message_size) :
    read_message_content max_message_size length op L S = ([], ⟨S, L, .content length op⟩) := by
  have hmod : (length + S.kept) % sizeMod = length + S.kept := Nat.mod_eq_of_lt (by omega)
  exact if_neg (by rw [exceeds, hmod]; omega)

/-- A frame whose length stands in the `n` bytes after the second one. -/
theorem reads_extended {n : ℕ} {b : UInt8} {r : Reading} (hn : n ≤ 8) (hlt : m.length < 256 ^ n)
    (hheader : ∀ L bs rest : List UInt8, L ++ bs = op :: b :: rest →
      got max_message_size bs ⟨S, L, .header⟩ = some ([], ⟨S, rest, r⟩))
    (hwant : ∀ L, want ⟨S, L, r⟩ = some n)
    (hgot : ∀ L bs, got max_message_size bs ⟨S, L, r⟩ =
      some (read_message_content max_message_size (lengthOf ((L ++ bs).take n)) op ((L ++ bs).drop n) S))
    (hmask : mask.length = 4) (hm : 4 + m.length < sizeMod) (hmax : max_message_size < sizeMod)
    (hsize : m.length + S.kept ≤ max_message_size)
    (h : L ++ bs = ([op, b] ++ (lengthBytes n m.length ++ (mask ++ maskBytes mask m))) ++ L')
    (hL : L.length = L'.length) :
    Reads (reader max_message_size) ⟨S, L, .header⟩ bs (receive op m S).1 (.after op m L' S) := by
  rw [List.append_assoc] at h
  obtain ⟨bs1, bs2, L1, rfl, hbs1, hL1, htail, hlen1⟩ := lag h hL
  rw [List.append_assoc] at htail
  obtain ⟨bs2, bs3, L2, rfl, hbs2, hL2, htail, hlen2⟩ := lag htail (hlen1.trans hL)
  have hread1 : Reads (reader max_message_size) ⟨S, L, .header⟩ bs1 [] ⟨S, L1, r⟩ :=
    Reads.one (by rw [reader_want, hbs1]; rfl) (by rw [reader_got, hheader L bs1 L1 hL1])
  have hread2 : Reads (reader max_message_size) ⟨S, L1, r⟩ bs2 [] ⟨S, L2, .content m.length op⟩ := by
    refine Reads.one (by rw [reader_want, hwant, hbs2, lengthBytes_length]) ?_
    rw [reader_got, hgot, hL2, List.take_left' (lengthBytes_length _ _), List.drop_left' (lengthBytes_length _ _),
      lengthOf_lengthBytes hn, Nat.mod_eq_of_lt hlt, read_message_content_fits hmax hsize]
  exact hread1.append (hread2.append (reads_content hmask hm htail (hlen2.trans (hlen1.trans hL))))

/-- A whole frame: the length stands in the second byte, or in the two or the eight bytes after it. -/
theorem reads_frame (hmask : mask.length = 4) (hm : 4 + m.length < sizeMod) (hmax : max_message_size < sizeMod)
    (hsize : m.length + S.kept ≤ max_message_size) (h : L ++ bs = Client.frame mask m op ++ L')
    (hL : L.length = L'.length) :
    Reads (reader max_message_size) ⟨S, L, .header⟩ bs (receive op m S).1 (.after op m L' S) := by
  by_cases hshort : m.length < 126
  · obtain ⟨-, hge, h126, h127, hval⟩ := second_byte hshort
    have hframe : Client.frame mask m op = [op, UInt8.ofNat m.length + 128] ++ (mask ++ maskBytes mask m) := by
      rw [Client.frame, lengthField, if_neg (by omega)]
    rw [hframe, List.append_assoc] at h
    obtain ⟨bs1, bs2, L1, rfl, hbs1, hL1, htail, hlen1⟩ := lag h hL
    have hread : Reads (reader max_message_size) ⟨S, L, .header⟩ bs1 [] ⟨S, L1, .content m.length op⟩ := by
      refine Reads.one (by rw [reader_want, hbs1]; rfl) ?_
      rw [reader_got, got]
      simp only [hL1, List.cons_append, List.nil_append, hge, h126, h127, if_false, hval]
      rw [read_message_content_fits hmax hsize]
    exact hread.append (reads_content hmask hm htail (hlen1.trans hL))
  · by_cases hmid : m.length ≤ 0xffff
    · rw [Client.frame, lengthField, if_pos (by omega), if_neg (by omega)] at h
      refine reads_extended (n := 2) (b := 126 + 128) (r := .length16 op) (by omega) (by norm_num; omega) ?_
        (fun _ => rfl) (fun _ _ => rfl) hmask hm hmax hsize (by simpa using h) hL
      intro L bs rest hL
      rw [got]
      simp only [hL]
      rfl
    · rw [Client.frame, lengthField, if_pos (by omega), if_pos (by omega)] at h
      refine reads_extended (n := 8) (b := 127 + 128) (r := .length64 op) (by omega)
        (by unfold sizeMod at hm; norm_num at hm ⊢; omega) ?_
        (fun _ => rfl) (fun _ _ => rfl) hmask hm hmax hsize (by simpa using h) hL
      intro L bs rest hL
      rw [got]
      simp only [hL]
      rfl

end Server

/-! ## The client reads a frame of the server -/

/-- A buffer `L` that is used up before the stream: for `a`, only what it has beyond the buffer is taken. -/
theorem lead {L bs a b L' : List UInt8} (h : L ++ bs = (a ++ b) ++ L') (hL : bs = [] ∨ L' = []) :
    ∃ bs1 bs2 L1, bs = bs1 ++ bs2 ∧ bs1.length = a.length - L.length ∧ L1.length = L.length - a.length ∧
      L ++ bs1 = a ++ L1 ∧ L1 ++ bs2 = b ++ L' ∧ (bs2 = [] ∨ L' = []) := by
  rw [List.append_assoc] at h
  rcases List.append_eq_append_iff.1 h with ⟨a', rfl, rfl⟩ | ⟨c', rfl, htail⟩
  · refine ⟨a', b ++ L', [], rfl, by simp, by simp, by simp, rfl, ?_⟩
    exact hL.imp (fun hnil => (List.append_eq_nil_iff.1 hnil).2) id
  · exact ⟨[], bs, c', rfl, by simp, by simp, by simp, htail.symm, hL⟩

theorem lead_or {a L bs1 L1 : List UInt8} (hbs1 : bs1.length = a.length - L.length)
    (hL1 : L1.length = L.length - a.length) : bs1 = [] ∨ L1 = [] := by
  rcases Nat.le_total a.length L.length with hle | hle
  · exact .inl (List.eq_nil_of_length_eq_zero (by omega))
  · exact .inr (List.eq_nil_of_length_eq_zero (by omega))

namespace Client

variable {max_message_size : ℕ} {S : Session} {M : InMessage} {op : UInt8} {m L' bs : List UInt8}

@[simp] theorem missing_eq (k n : ℕ) : missing k n = n - k := by
  unfold missing
  split <;> omega

@[simp] theorem updated_eq (k n : ℕ) : updated k n = k - n := by
  unfold updated
  split <;> omega

/-- A connection that has read a frame. -/
def Connection.after (op : UInt8) (m L : List UInt8) (S : Session) : Connection :=
  { session := (receive ⟨op, m.length, m⟩ S).2.1
    in_message :=
      if (receive ⟨op, m.length, m⟩ S).2.2 then if 0 < L.length then ⟨op, m.length, L⟩ else emptyMessage
      else ⟨op, m.length, m⟩
    reading := if (receive ⟨op, m.length, m⟩ S).2.2 then .header L.length else .stopped }

/-- The payload, after the header. -/
theorem reads_content (h : M.streambuf ++ bs = m ++ L') (hL : bs = [] ∨ L' = []) (hlen : M.length = m.length) :
    Reads (reader max_message_size) ⟨S, M, .content M.streambuf.length⟩ bs
      (receive ⟨M.fin_rsv_opcode, m.length, m⟩ S).1 (.after M.fin_rsv_opcode m L' S) := by
  have hcount := congrArg List.length h
  simp only [List.length_append] at hcount
  have hbs : bs.length = m.length - M.streambuf.length := by
    rcases hL with rfl | rfl <;> simp only [List.length_nil] at hcount ⊢ <;> omega
  have hL' : L'.length = M.streambuf.length - m.length := by omega
  refine Reads.one ?_ ?_
  · rw [reader_want, want]
    simp only [missing_eq, hlen, hbs]
  · rw [reader_got, got]
    simp only [h, hlen, updated_eq]
    rw [if_neg (by simp), ← hL']
    by_cases hpos : 0 < L'.length
    · rw [if_pos hpos, List.take_left, List.drop_left, Connection.after, if_pos hpos]
    · rw [if_neg hpos, List.eq_nil_of_length_eq_zero (Nat.eq_zero_of_not_pos hpos), List.append_nil,
        Connection.after, if_neg (by simp : ¬ 0 < ([] : List UInt8).length)]

theorem read_message_content_fits {n : ℕ} (hmax : max_message_size < sizeMod)
    (hsize : M.length + S.kept ≤ max_message_size) :
    read_message_content max_message_size n M S = ([], ⟨S, M, .content n⟩) := by
  have hmod : (M.length + S.kept) % sizeMod = M.length + S.kept := Nat.mod_eq_of_lt (by omega)
  exact if_neg (by rw [exceeds, hmod]; omega)

/-- A frame whose length stands in the `n` bytes after the second one. -/
theorem reads_extended {n : ℕ} {b : UInt8} {r : ℕ → Reading} (hn : n ≤ 8) (hlt : m.length < 256 ^ n)
    (hheader : ∀ (M : InMessage) (bs rest : List UInt8), M.streambuf ++ bs = op :: b :: rest →
      got max_message_size bs ⟨S, M, .header M.streambuf.length⟩ =
        some ([], ⟨S, ⟨op, M.length, rest⟩, r (M.streambuf.length - 2)⟩))
    (hwant : ∀ M k, want ⟨S, M, r k⟩ = some (n - k))
    (hgot : ∀ (M : InMessage) (bs : List UInt8) k, got max_message_size bs ⟨S, M, r k⟩ =
      some (read_message_content max_message_size (k - n) ⟨M.fin_rsv_opcode,
        lengthOf ((M.streambuf ++ bs).take n), (M.streambuf ++ bs).drop n⟩ S))
    (hmax : max_message_size < sizeMod) (hsize : m.length + S.kept ≤ max_message_size)
    (h : M.streambuf ++ bs = ([op, b] ++ (lengthBytes n m.length ++ m)) ++ L') (hL : bs = [] ∨ L' = []) :
    Reads (reader max_message_size) ⟨S, M, .header M.streambuf.length⟩ bs (receive ⟨op, m.length, m⟩ S).1
      (.after op m L' S) := by
  obtain ⟨bs1, bs2, L1, rfl, hbs1, hlen1, hL1, htail, hL⟩ := lead h hL
  obtain ⟨bs2, bs3, L2, rfl, hbs2, hlen2, hL2, htail, hL⟩ := lead htail hL
  rw [lengthBytes_length] at hbs2 hlen2
  have hread1 : Reads (reader max_message_size) ⟨S, M, .header M.streambuf.length⟩ bs1 []
      ⟨S, ⟨op, M.length, L1⟩, r L1.length⟩ := by
    refine Reads.one ?_ ?_
    · simp only [reader_want, want, missing_eq, hbs1]
      rfl
    · rw [reader_got, hheader M bs1 L1 hL1, hlen1]
      rfl
  have hread2 : Reads (reader max_message_size) ⟨S, ⟨op, M.length, L1⟩, r L1.length⟩ bs2 []
      ⟨S, ⟨op, m.length, L2⟩, .content L2.length⟩ := by
    refine Reads.one (by rw [reader_want, hwant, hbs2]) ?_
    rw [reader_got, hgot, hL2, List.take_left' (lengthBytes_length _ _), List.drop_left' (lengthBytes_length _ _),
      lengthOf_lengthBytes hn, Nat.mod_eq_of_lt hlt, read_message_content_fits hmax hsize, hlen2]
  exact hread1.append (hread2.append (reads_content (M := ⟨op, m.length, L2⟩) htail hL rfl))

/-- A whole frame: the length stands in the second byte, or in the two or the eight bytes after it. -/
theorem reads_frame (hm : m.length < sizeMod) (hmax : max_message_size < sizeMod)
    (hsize : m.length + S.kept ≤ max_message_size) (h : M.streambuf ++ bs = Server.frame m op ++ L')
    (hL : bs = [] ∨ L' = []) :
    Reads (reader max_message_size) ⟨S, M, .header M.streambuf.length⟩ bs (receive ⟨op, m.length, m⟩ S).1
      (.after op m L' S) := by
  have hheader : ∀ (b1 : UInt8) (M : InMessage) (bs rest : List UInt8), M.streambuf ++ bs = op :: b1 :: rest →
      ¬ (bs.length = 0 ∧ (M.streambuf ++ bs).length = 0) := by
    rintro b1 M bs rest h ⟨-, h0⟩
    rw [h] at h0
    simp at h0
  by_cases hshort : m.length < 126
  · obtain ⟨⟨hlt, h126, h127, hval⟩, -⟩ := second_byte hshort
    have hframe : Server.frame m op = [op, UInt8.ofNat m.length] ++ m := by
      rw [Server.frame, lengthField, if_neg (by omega)]
      simp
    rw [hframe] at h
    obtain ⟨bs1, bs2, L1, rfl, hbs1, hlen1, hL1, htail, hL⟩ := lead h hL
    have hread : Reads (reader max_message_size) ⟨S, M, .header M.streambuf.length⟩ bs1 []
        ⟨S, ⟨op, m.length, L1⟩, .content L1.length⟩ := by
      refine Reads.one ?_ ?_
      · simp only [reader_want, want, missing_eq, hbs1]
        rfl
      · rw [reader_got, got]
        simp only [if_neg (hheader _ M bs1 L1 hL1)]
        simp only [hL1, List.cons_append, List.nil_append, UInt8.not_le.2 hlt, h126, h127, if_false, hval, updated_eq]
        rw [read_message_content_fits (M := ⟨op, m.length, L1⟩) hmax hsize, hlen1]
        rfl
    exact hread.append (reads_content (M := ⟨op, m.length, L1⟩) htail hL rfl)
  · by_cases hmid : m.length ≤ 0xffff
    · rw [Server.frame, lengthField, if_pos (by omega), if_neg (by omega)] at h
      refine reads_extended (n := 2) (b := 126) (r := .length16) (by omega) (by norm_num; omega) ?_
        (fun _ _ => by simp [want]) (fun _ _ _ => by simp [got]) hmax hsize (by simpa using h) hL
      intro M bs rest hL
      rw [got]
      simp only [if_neg (hheader _ M bs rest hL)]
      simp only [hL, updated_eq]
      rfl
    · rw [Server.frame, lengthField, if_pos (by omega), if_pos (by omega)] at h
      refine reads_extended (n := 8) (b := 127) (r := .length64) (by omega)
        (by unfold sizeMod at hm; norm_num at hm ⊢; omega) ?_
        (fun _ _ => by simp [want]) (fun _ _ _ => by simp [got]) hmax hsize (by simpa using h) hL
      intro M bs rest hL
      rw [got]
      simp only [if_neg (hheader _ M bs rest hL)]
      simp only [hL, updated_eq]
      rfl

end Client

end SimpleWeb

end Undertone
