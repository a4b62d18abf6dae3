import Undertone.WebSocket.Frames

/-!
# Messages over a connection

What a sequence of frames is meant to deliver: messages in one frame or in fragments, with control frames at any place
between the fragments, and a close frame at the end. Both loops `read_message` do just that with the bytes of the
frames of the other side (`Server.messages_delivered`, `Client.messages_received`).
-/

namespace Undertone

namespace SimpleWeb

structure Frame where
  fin_rsv_opcode : UInt8
  payload : List UInt8
deriving DecidableEq, Repr

inductive Delivery
  | message (opcode : UInt8) (payload : List UInt8)
  | ping (payload : List UInt8)
  | pong (payload : List UInt8)
  | close (payload : List UInt8)
deriving DecidableEq, Repr

/-- The opcode of the first frame of a message: not that of a control frame, nor of a continuation. -/
def IsData (opcode : UInt8) : Prop :=
  opcode &&& 0x80 = 0 ∧ opcode &&& 0x0f ≠ 0 ∧ opcode &&& 0x0f ≠ 8 ∧ opcode &&& 0x0f ≠ 9 ∧ opcode &&& 0x0f ≠ 10

instance (opcode : UInt8) : Decidable (IsData opcode) := inferInstanceAs (Decidable (_ ∧ _))

/-- The opcode and the bytes so far of a message whose last fragment is still to come. -/
abbrev Pending := Option (UInt8 × List UInt8)

def Pending.size (p : Pending) : ℕ := (p.map (·.2.length)).getD 0

/-- What one frame that does not close the connection delivers. -/
inductive Meaning : Pending → Frame → List Delivery → Pending → Prop
  | whole (op : UInt8) (d : List UInt8) (hop : IsData op) : Meaning none ⟨0x80 ||| op, d⟩ [.message op d] none
  | first (op : UInt8) (d : List UInt8) (hop : IsData op) : Meaning none ⟨op, d⟩ [] (some (op, d))
  | continuation (op : UInt8) (b d : List UInt8) : Meaning (some (op, b)) ⟨0, d⟩ [] (some (op, b ++ d))
  | last (op : UInt8) (b d : List UInt8) : Meaning (some (op, b)) ⟨0x80, d⟩ [.message op (b ++ d)] none
  | ping (p : Pending) (d : List UInt8) : Meaning p ⟨0x89, d⟩ [.ping d] p
  | pong (p : Pending) (d : List UInt8) : Meaning p ⟨0x8a, d⟩ [.pong d] p

/-- The frames deliver `ds`; no frame makes what is kept longer than `limit`. -/
inductive Delivers (limit : ℕ) : Pending → List Frame → List Delivery → Prop
  | nil (p : Pending) : Delivers limit p [] []
  | frame {p p' : Pending} {f : Frame} {fs : List Frame} {ds ds' : List Delivery} (hm : Meaning p f ds p')
      (hsize : f.payload.length + p.size ≤ limit) (h : Delivers limit p' fs ds') :
      Delivers limit p (f :: fs) (ds ++ ds')
  | close {p : Pending} (d : List UInt8) (hsize : d.length + p.size ≤ limit) :
      Delivers limit p [⟨0x88, d⟩] [.close d]

/-! ## What a connection makes of a delivery -/

/-- The message as the handler gets it. -/
def received (opcode : UInt8) (payload : List UInt8) : InMessage :=
  { fin_rsv_opcode := opcode ||| 0x80, length := payload.length, streambuf := payload }

def Pending.kept (p : Pending) : Option InMessage := p.map fun b => received b.1 b.2

/-- What a connection does with a delivery. -/
def actions (close_sent : Bool) : Delivery → List Action
  | .message op d => [.on_message (received op d)]
  | .ping d => [.send d 0x8a, .on_ping]
  | .pong _ => [.on_pong]
  | .close d => (close (statusReason d.length d).1 (statusReason d.length d).2 ⟨none, close_sent⟩).1

theorem kept_size (p : Pending) (c : Bool) : (Session.mk p.kept c).kept = p.size := by
  cases p <;> rfl

/-- A byte is one of 256. -/
theorem forall_byte {P : UInt8 → Prop} (h : ∀ n < 256, P (UInt8.ofNat n)) (b : UInt8) : P b := by
  have hb := h b.toNat b.toNat_lt
  rwa [UInt8.ofNat_toNat] at hb

/-- The opcode with its final bit. -/
theorem final_bit (op : UInt8) :
    (0x80 ||| op) &&& 0x80 ≠ 0 ∧ (0x80 ||| op) &&& 0x0f = op &&& 0x0f ∧ (0x80 ||| op) = op ||| 0x80 ∧
      0x80 ||| op ||| 0x80 = op ||| 0x80 := by
  revert op
  exact forall_byte (by decide +kernel)

/-- The bits of the opcodes of control frames and of the last fragment. -/
theorem control_bits :
    ((0x80 : UInt8) &&& 0x0f = 0 ∧ (0x80 : UInt8) &&& 0x80 ≠ 0) ∧
    ((0x88 : UInt8) &&& 0x0f = 8 ∧ (0x88 : UInt8) &&& 0x80 ≠ 0) ∧
    ((0x89 : UInt8) &&& 0x0f = 9 ∧ (0x89 : UInt8) &&& 0x80 ≠ 0) ∧
    ((0x8a : UInt8) &&& 0x0f = 10 ∧ (0x8a : UInt8) &&& 0x80 ≠ 0) := by decide

/-! ## The server -/

namespace Server

variable {limit max_message_size : ℕ} {p p' : Pending} {f : Frame} {ds : List Delivery} {c : Bool}

theorem receive_meaning (hmod : limit < sizeMod) (h : Meaning p f ds p') (hsize : f.payload.length + p.size ≤ limit) :
    receive f.fin_rsv_opcode f.payload ⟨p.kept, c⟩ = (ds.flatMap (actions c), ⟨p'.kept, c⟩, true) := by
  cases h with
  | whole op d hop =>
    obtain ⟨-, h0, h8, h9, h10⟩ := hop
    obtain ⟨hfin, hlow, hor, -⟩ := final_bit op
    simp only [receive, inMessage, hfin, hlow, h0, h8, h9, h10, or_self, if_false]
    simp [Pending.kept, actions, received, hor]
  | first op d hop =>
    obtain ⟨hfin, h0, h8, h9, h10⟩ := hop
    simp [receive, inMessage, hfin, h8, h9, h10, Pending.kept, received]
  | continuation op b d =>
    have hlen : (b.length + d.length) % sizeMod = (b ++ d).length := by
      rw [List.length_append]
      exact Nat.mod_eq_of_lt (by simp [Pending.size] at hsize; omega)
    simp [receive, inMessage, Pending.kept, received, hlen]
  | last op b d =>
    have hlen : (b.length + d.length) % sizeMod = (b ++ d).length := by
      rw [List.length_append]
      exact Nat.mod_eq_of_lt (by simp [Pending.size] at hsize; omega)
    simp [receive, inMessage, Pending.kept, received, hlen, actions, control_bits]
  | ping p d => simp [receive, inMessage, actions, control_bits]
  | pong p d => simp [receive, inMessage, actions, control_bits]

theorem receive_close (d : List UInt8) : receive 0x88 d ⟨p.kept, c⟩ =
    (actions c (.close d), ⟨p.kept, true⟩, false) := by
  simp [receive, inMessage, actions, close, send_close, control_bits]

/-- The bytes of frames of the client, each with its mask. -/
def wire (fs : List (Frame × List UInt8)) : List UInt8 :=
  fs.flatMap fun f => Client.frame f.2 f.1.payload f.1.fin_rsv_opcode

/-- The frames one after the other, with `L` in front. -/
theorem delivers (hlimit : limit ≤ max_message_size) (hmax : max_message_size < sizeMod)
    (hmod : 4 + limit < sizeMod) {fs : List (Frame × List UInt8)} (hmask : ∀ f ∈ fs, f.2.length = 4)
    (h : Delivers limit p (fs.map Prod.fst) ds) {L L' bs : List UInt8} (hbytes : L ++ bs = wire fs ++ L')
    (hL : L.length = L'.length) :
    ∃ C, Reads (reader max_message_size) ⟨⟨p.kept, c⟩, L, .header⟩ bs (ds.flatMap (actions c)) C ∧
      (C.reading = .header ∨ C.reading = .stopped) := by
  induction fs generalizing p ds L bs with
  | nil =>
    cases h
    have hbs : bs = [] := by
      have := congrArg List.length hbytes
      simp only [wire, List.flatMap_nil, List.nil_append, List.length_append] at this
      exact List.eq_nil_of_length_eq_zero (by omega)
    subst hbs
    exact ⟨_, .nil _, .inl rfl⟩
  | cons f fs ih =>
    obtain ⟨⟨op, d⟩, mask⟩ := f
    have hmask4 : mask.length = 4 := hmask _ List.mem_cons_self
    rw [wire, List.flatMap_cons, List.append_assoc] at hbytes
    obtain ⟨bs1, bs2, L1, rfl, -, hL1, hrest, hlen1⟩ := lag hbytes hL
    have hframe : d.length + p.size ≤ limit →
        Reads (reader max_message_size) ⟨⟨p.kept, c⟩, L, .header⟩ bs1 (receive op d ⟨p.kept, c⟩).1
          (.after op d L1 ⟨p.kept, c⟩) := fun hsize =>
      reads_frame hmask4 (by omega) hmax (by rw [kept_size]; omega) hL1 hlen1.symm
    rw [List.map_cons] at h
    generalize hfs : fs.map Prod.fst = rest at h ih
    cases h with
    | @frame _ p' _ _ ds ds' hm hsize hds =>
      have hrec := receive_meaning (c := c) (by omega) hm hsize
      have hread := hframe hsize
      rw [Connection.after, hrec] at hread
      obtain ⟨C, hC, hend⟩ := ih (fun g hg => hmask g (List.mem_cons_of_mem _ hg)) hds hrest (hlen1.trans hL)
      exact ⟨C, by rw [List.flatMap_append]; exact hread.append hC, hend⟩
    | close _ hsize =>
      have hread := hframe hsize
      rw [receive_close] at hread
      obtain rfl := List.map_eq_nil_iff.1 hfs
      have hbs2 : bs2 = [] := by
        have := congrArg List.length hrest
        simp only [List.flatMap_nil, List.nil_append, List.length_append] at this
        exact List.eq_nil_of_length_eq_zero (by omega)
      rw [hbs2, List.append_nil, List.flatMap_singleton]
      refine ⟨_, hread, .inr ?_⟩
      rw [Connection.after, receive_close]
      rfl

/-- The server delivers what the frames of the client are meant to deliver. Bytes that came with the handshake (`L`)
stay in front: as many bytes are left in the buffer at the end. -/
theorem messages_delivered (hlimit : limit ≤ max_message_size) (hmax : max_message_size < sizeMod)
    (hmod : 4 + limit < sizeMod) {fs : List (Frame × List UInt8)} (hmask : ∀ f ∈ fs, f.2.length = 4)
    (h : Delivers limit none (fs.map Prod.fst) ds) {L L' bs : List UInt8} (hbytes : L ++ bs = wire fs ++ L')
    (hL : L.length = L'.length) :
    ∃ C, Reads (reader max_message_size) (.opened L) bs (ds.flatMap (actions false)) C ∧
      (C.reading = .header ∨ C.reading = .stopped) :=
  delivers hlimit hmax hmod hmask h hbytes hL

/-- A message in two fragments with a ping between them; the first byte came with the handshake, and the first byte of
the next frame is there at the end. -/
theorem messages_delivered_fragments :
    let mask : List UInt8 := [1, 2, 3, 4]
    let fs : List (Frame × List UInt8) := [(⟨1, [97]⟩, mask), (⟨0x89, []⟩, mask), (⟨0x80, [98]⟩, mask)]
    ∃ C, Reads (reader 1000) (.opened [1]) ((wire fs).drop 1 ++ [129])
      ([.ping [], .message 1 [97, 98]].flatMap (actions false)) C ∧ (C.reading = .header ∨ C.reading = .stopped) := by
  intro mask fs
  have hfs : Delivers 2 none (fs.map Prod.fst) [.ping [], .message 1 [97, 98]] :=
    .frame (.first 1 [97] (by decide)) (by decide) (.frame (.ping _ []) (by decide)
      (.frame (.last 1 [97] [98]) (by decide) (.nil none)))
  have hbytes : [1] ++ ((wire fs).drop 1 ++ [129]) = wire fs ++ [129] := rfl
  exact messages_delivered (by decide) (by decide) (by decide) (by decide) hfs hbytes rfl

/-- All the bytes of a connection that has just been opened; at their end it waits for more, or has stopped. -/
theorem opened_delivers (hlimit : limit ≤ max_message_size) (hmax : max_message_size < sizeMod)
    (hmod : 4 + limit < sizeMod) {fs : List (Frame × List UInt8)} (hmask : ∀ f ∈ fs, f.2.length = 4)
    (h : Delivers limit none (fs.map Prod.fst) ds) :
    ∃ C, Reads (reader max_message_size) (.opened []) (wire fs) (ds.flatMap (actions false)) C ∧ want C ≠ some 0 := by
  have hbytes : [] ++ wire fs = wire fs ++ [] := (List.append_nil (wire fs)).symm
  obtain ⟨C, hC, hend⟩ := delivers (c := false) hlimit hmax hmod hmask h hbytes rfl
  refine ⟨C, hC, ?_⟩
  rcases hend with hend | hend <;> simp [want, hend]

end Server

/-! ## The client -/

namespace Client

variable {limit max_message_size : ℕ} {p p' : Pending} {f : Frame} {ds : List Delivery} {c : Bool}

theorem receive_meaning (hmod : limit < sizeMod) (h : Meaning p f ds p') (hsize : f.payload.length + p.size ≤ limit) :
    receive ⟨f.fin_rsv_opcode, f.payload.length, f.payload⟩ ⟨p.kept, c⟩ =
      (ds.flatMap (actions c), ⟨p'.kept, c⟩, true) := by
  cases h with
  | whole op d hop =>
    obtain ⟨-, h0, h8, h9, h10⟩ := hop
    obtain ⟨hfin, hlow, hor, -⟩ := final_bit op
    simp only [receive, hfin, hlow, h8, h9, h10, if_false]
    simp [Pending.kept, actions, received, hor]
  | first op d hop =>
    obtain ⟨hfin, h0, h8, h9, h10⟩ := hop
    simp [receive, hfin, h8, h9, h10, Pending.kept, received]
  | continuation op b d =>
    have hlen : (b.length + d.length) % sizeMod = (b ++ d).length := by
      rw [List.length_append]
      exact Nat.mod_eq_of_lt (by simp [Pending.size] at hsize; omega)
    simp [receive, joined, Pending.kept, received, hlen]
  | last op b d =>
    have hlen : (b.length + d.length) % sizeMod = (b ++ d).length := by
      rw [List.length_append]
      exact Nat.mod_eq_of_lt (by simp [Pending.size] at hsize; omega)
    simp [receive, joined, Pending.kept, received, hlen, actions, control_bits]
  | ping p d => simp [receive, actions, control_bits]
  | pong p d => simp [receive, actions, control_bits]

theorem receive_close (d : List UInt8) : receive ⟨0x88, d.length, d⟩ ⟨p.kept, c⟩ =
    (actions c (.close d), ⟨p.kept, true⟩, false) := by
  simp [receive, actions, close, send_close, control_bits]

/-- The message that is read next, with what is left in the buffer. -/
def next (op : UInt8) (m L : List UInt8) : InMessage := if 0 < L.length then ⟨op, m.length, L⟩ else emptyMessage

theorem next_streambuf (op : UInt8) (m L : List UInt8) : (next op m L).streambuf = L := by
  unfold next
  split
  · rfl
  · exact (List.eq_nil_of_length_eq_zero (by omega)).symm

theorem after_next {op : UInt8} {m L : List UInt8} {S : Session} (h : (receive ⟨op, m.length, m⟩ S).2.2 = true) :
    Connection.after op m L S =
      ⟨(receive ⟨op, m.length, m⟩ S).2.1, next op m L, .header L.length⟩ := by
  rw [Connection.after, if_pos h, if_pos h]
  rfl

/-- The bytes of frames of the server. -/
def wire (fs : List Frame) : List UInt8 := fs.flatMap fun f => Server.frame f.payload f.fin_rsv_opcode

/-- The frames one after the other, with what is in the buffer in front. -/
theorem delivers (hlimit : limit ≤ max_message_size) (hmax : max_message_size < sizeMod) {fs : List Frame}
    (h : Delivers limit p fs ds) {M : InMessage} {L' bs : List UInt8}
    (hbytes : M.streambuf ++ bs = wire fs ++ L') (hL : bs = [] ∨ L' = []) :
    ∃ C, Reads (reader max_message_size) ⟨⟨p.kept, c⟩, M, .header M.streambuf.length⟩ bs
      (ds.flatMap (actions c)) C ∧ (C.reading = .header L'.length ∨ C.reading = .stopped) := by
  induction h generalizing M bs with
  | nil p =>
    have hbs : bs = [] := by
      rcases hL with hL | rfl
      · exact hL
      · simp only [wire, List.flatMap_nil, List.append_nil] at hbytes
        exact (List.append_eq_nil_iff.1 hbytes).2
    subst hbs
    have hM : M.streambuf = L' := by simpa [wire] using hbytes
    exact ⟨_, .nil _, .inl (by rw [hM])⟩
  | @frame p p' f fs ds ds' hm hsize hds ih =>
    rw [wire, List.flatMap_cons] at hbytes
    obtain ⟨bs1, bs2, L1, rfl, hbs1, hlen1, hL1, hrest, hL2⟩ := lead hbytes hL
    have hread := reads_frame (S := ⟨p.kept, c⟩) (by omega) hmax (by rw [kept_size]; omega) hL1
      (lead_or hbs1 hlen1)
    rw [after_next (by rw [receive_meaning (by omega) hm hsize]), receive_meaning (by omega) hm hsize] at hread
    have hnext : (next f.fin_rsv_opcode f.payload L1).streambuf ++ bs2 = wire fs ++ L' := by
      rw [next_streambuf]
      exact hrest
    obtain ⟨C, hC, hend⟩ := ih hnext hL2
    rw [next_streambuf] at hC
    exact ⟨C, by rw [List.flatMap_append]; exact hread.append hC, hend⟩
  | @close p d hsize =>
    rw [wire, List.flatMap_cons] at hbytes
    obtain ⟨bs1, bs2, L1, rfl, hbs1, hlen1, hL1, hrest, hL2⟩ := lead hbytes hL
    have hframe : M.streambuf ++ bs1 = Server.frame d 0x88 ++ L1 := hL1
    have hread := reads_frame (S := ⟨p.kept, c⟩) (by omega) hmax (by rw [kept_size]; omega) hframe
      (lead_or hbs1 hlen1)
    have hbs2 : bs2 = [] := by
      rcases hL2 with hL2 | rfl
      · exact hL2
      · rw [List.flatMap_nil] at hrest
        exact (List.append_eq_nil_iff.1 hrest).2
    rw [receive_close] at hread
    rw [hbs2, List.append_nil, List.flatMap_singleton]
    refine ⟨_, hread, .inr ?_⟩
    rw [Connection.after, receive_close]
    rfl

/-- The client delivers what the frames of the server are meant to deliver, whatever part of their bytes came with the
handshake (`L`). -/
theorem messages_received (hlimit : limit ≤ max_message_size) (hmax : max_message_size < sizeMod) {fs : List Frame}
    (h : Delivers limit none fs ds) {L L' bs : List UInt8} (hbytes : L ++ bs = wire fs ++ L')
    (hL : bs = [] ∨ L' = []) :
    ∃ C, Reads (reader max_message_size) (.opened L) bs (ds.flatMap (actions false)) C ∧
      (C.reading = .header L'.length ∨ C.reading = .stopped) :=
  delivers (M := { emptyMessage with streambuf := L }) hlimit hmax h hbytes hL

/-- Two messages; of the first one all but the last byte came with the handshake. -/
theorem messages_received_two :
    let fs : List Frame := [⟨0x81, [97, 98]⟩, ⟨0x81, []⟩]
    ∃ C, Reads (reader 1000) (.opened ((wire fs).take 3)) ((wire fs).drop 3)
      ([.message 1 [97, 98], .message 1 []].flatMap (actions false)) C ∧
        (C.reading = .header 0 ∨ C.reading = .stopped) := by
  intro fs
  have hwhole : ∀ d : List UInt8, Meaning none ⟨0x81, d⟩ [.message 1 d] none := fun d => .whole 1 d (by decide)
  have hfs : Delivers 2 none fs [.message 1 [97, 98], .message 1 []] :=
    .frame (hwhole [97, 98]) (by decide) (.frame (hwhole []) (by decide) (.nil none))
  have hbytes : (wire fs).take 3 ++ (wire fs).drop 3 = wire fs ++ [] := rfl
  exact messages_received (by decide) (by decide) hfs hbytes (.inr rfl)

/-- All the bytes of a connection that has just been opened; at their end it waits for more, or has stopped. -/
theorem opened_delivers (hlimit : limit ≤ max_message_size) (hmax : max_message_size < sizeMod) {fs : List Frame}
    (h : Delivers limit none fs ds) :
    ∃ C, Reads (reader max_message_size) (.opened []) (wire fs) (ds.flatMap (actions false)) C ∧ want C ≠ some 0 := by
  have hbytes : emptyMessage.streambuf ++ wire fs = wire fs ++ [] := (List.append_nil (wire fs)).symm
  obtain ⟨C, hC, hend⟩ := delivers (c := false) hlimit hmax h hbytes (.inr rfl)
  refine ⟨C, hC, ?_⟩
  rcases hend with hend | hend <;> simp [want, hend]

end Client

end SimpleWeb

end Undertone
