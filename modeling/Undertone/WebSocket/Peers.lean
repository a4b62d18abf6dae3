import Undertone.WebSocket.Defs
import Undertone.WebSocket.Frames

/-!
# Any peer

What a connection does with bytes that nobody has promised to be frames. Whatever arrives, the callbacks come in order:
messages, pings and pongs while the connection is open, and when it ends one close frame and one `on_close`, behind
which nothing comes; no message and no unfinished message is larger than the limit (`Server.any_client`,
`Client.any_server`). The server adds the mask to the length that a client announces: its limit holds as long as this
sum does not overflow, and `Server.limit_overflows` shows what happens where it does.
-/

namespace Undertone

namespace SimpleWeb

/-- What a connection does while it is open. -/
inductive Ordinary (max_message_size : ℕ) : Action → Prop
  | on_message (m : InMessage) (h : m.streambuf.length ≤ max_message_size) : Ordinary max_message_size (.on_message m)
  | on_ping : Ordinary max_message_size .on_ping
  | on_pong : Ordinary max_message_size .on_pong
  | pong (out_message : List UInt8) (fin_rsv_opcode : UInt8) (hop : fin_rsv_opcode &&& 0x0f = 10)
      (h : out_message.length ≤ max_message_size) : Ordinary max_message_size (.send out_message fin_rsv_opcode)

/-- What a connection ends with. -/
inductive Ending : List Action → Prop
  | closed (status : ℕ) (reason : List UInt8) :
      Ending [.send (UInt8.ofNat (status >>> 8) :: UInt8.ofNat (status % 256) :: reason) 136, .on_close status reason]
  | tooBig : Ending [.message_size, .send (UInt8.ofNat (1009 >>> 8) :: UInt8.ofNat (1009 % 256) :: tooBig) 136,
      .on_close 1009 tooBig]

/-- A connection that is open, or has ended. -/
inductive Course {σ : Type} (isOpen stopped : σ → Prop) (max_message_size : ℕ) (as : List Action) (C : σ) : Prop
  | goesOn (h : isOpen C) (has : ∀ a ∈ as, Ordinary max_message_size a)
  | ended (before last : List Action) (h : stopped C) (has : as = before ++ last)
      (hbefore : ∀ a ∈ before, Ordinary max_message_size a) (hlast : Ending last)

/-- What came before, while the connection was open. -/
theorem Course.after {σ : Type} {isOpen stopped : σ → Prop} {max_message_size : ℕ} {as as' : List Action} {C : σ}
    (h : Course isOpen stopped max_message_size as' C) (has : ∀ a ∈ as, Ordinary max_message_size a) :
    Course isOpen stopped max_message_size (as ++ as') C := by
  cases h with
  | goesOn hC has' => exact .goesOn hC fun a ha => (List.mem_append.1 ha).elim (has a) (has' a)
  | ended before last hC has' hbefore hlast =>
    refine .ended (as ++ before) last hC (by rw [has', List.append_assoc]) (fun a ha => ?_) hlast
    exact (List.mem_append.1 ha).elim (has a) (hbefore a)

/-- A connection of which every read from a state that is `ok` keeps the course, over a whole stream; no stream has more
than 2 ^ 64 bytes. -/
theorem Course.reads {σ : Type} {R : Reader UInt8 σ Action} {isOpen : ℕ → σ → Prop} {stopped ok : σ → Prop}
    {max_message_size n : ℕ} {bs : List UInt8} {as : List Action} {s C : σ} (h0 : isOpen n s)
    (hstep : ∀ total C C' bs as, isOpen total C → ok C → R.want C = some bs.length → total + bs.length < sizeMod →
      R.got bs C = some (as, C') → Course (isOpen (total + bs.length)) stopped max_message_size as C')
    (hstop : ∀ C, stopped C → R.want C = none) (h : Reads R s bs as C)
    (hok : ∀ bs1 as1 C1, bs1 <+: bs → Reads R s bs1 as1 C1 → ok C1) (hreal : n + bs.length < sizeMod) :
    Course (isOpen (n + bs.length)) stopped max_message_size as C := by
  refine (h.rule (fun bs as C => Reads R s bs as C ∧ ((∀ bs1 as1 C1, bs1 <+: bs → Reads R s bs1 as1 C1 → ok C1) →
    n + bs.length < sizeMod → Course (isOpen (n + bs.length)) stopped max_message_size as C))
    ⟨.nil s, fun _ _ => .goesOn h0 (by simp)⟩ ?_).2 hok hreal
  rintro bs as C cs as' C' ⟨hreads, ih⟩ hwant hgot
  refine ⟨hreads.append (.one hwant hgot), fun hok hlong => ?_⟩
  rw [List.length_append] at hlong
  have hbefore := ih (fun bs1 as1 C1 hb => hok bs1 as1 C1 (hb.trans (List.prefix_append _ _))) (by omega)
  cases hbefore with
  | goesOn hC has =>
    rw [List.length_append, ← Nat.add_assoc]
    have hCok := hok bs as C (List.prefix_append _ _) hreads
    exact (hstep _ _ _ _ _ hC hCok hwant (by omega) hgot).after has
  | ended before last hC has hbefore hlast => exact absurd (hwant.symm.trans (hstop C hC)) (by simp)

/-- The session of an open connection. -/
structure Session.Fits (max_message_size : ℕ) (S : Session) : Prop where
  close_sent : S.close_sent = false
  fragments : ∀ m, S.fragmented_in_message = some m → m.length = m.streambuf.length ∧ m.length ≤ max_message_size

variable {max_message_size : ℕ} {S : Session}

theorem Session.Fits.close (h : S.Fits max_message_size) (status : ℕ) (reason : List UInt8) :
    Ending (SimpleWeb.close status reason S).1 := by
  simp only [SimpleWeb.close, send_close, h.close_sent]
  exact .closed status reason

theorem Session.Fits.refuse (h : S.Fits max_message_size) : Ending (SimpleWeb.refuse S).1 := by
  simp only [SimpleWeb.refuse, SimpleWeb.close, send_close, h.close_sent]
  exact .tooBig

/-- A pong has the opcode of a ping and one more. -/
theorem pong_opcode (op : UInt8) (h : op &&& 0x0f = 9) : (op + 1) &&& 0x0f = 10 := by
  have hall : ∀ n < 256, UInt8.ofNat n &&& 0x0f = 9 → (UInt8.ofNat n + 1) &&& 0x0f = 10 := by decide +kernel
  have hop := hall op.toNat op.toNat_lt
  rw [UInt8.ofNat_toNat] at hop
  exact hop h

theorem Session.kept_some {m : InMessage} (h : S.fragmented_in_message = some m) : S.kept = m.length := by
  simp [Session.kept, h]

theorem Session.kept_none (h : S.fragmented_in_message = none) : S.kept = 0 := by
  simp [Session.kept, h]

/-- Fragments of which the last has arrived, with room for it. -/
theorem room {n : ℕ} (hfit : (n + S.kept) % sizeMod ≤ max_message_size)
    (hreal : n + S.kept < sizeMod) : n + S.kept ≤ max_message_size := by
  rwa [Nat.mod_eq_of_lt hreal] at hfit

/-! ## The server -/

namespace Server

/-- A message that a frame belongs to is within the limit, and the fragments are. -/
theorem inMessage_fits (op : UInt8) {bytes : List UInt8} (h : S.Fits max_message_size)
    (hfit : bytes.length + S.kept ≤ max_message_size) (hreal : bytes.length + S.kept < sizeMod) :
    (inMessage op bytes S).1.streambuf.length ≤ max_message_size ∧ (inMessage op bytes S).2.Fits max_message_size ∧
      (inMessage op bytes S).2.kept ≤ S.kept + bytes.length := by
  unfold inMessage
  split
  · cases hm : S.fragmented_in_message with
    | none =>
      rw [Session.kept_none hm] at hfit hreal ⊢
      refine ⟨by simpa using hfit, ⟨h.close_sent, fun m hm => ?_⟩, by simp [Session.kept]⟩
      obtain rfl := Option.some.inj hm
      exact ⟨rfl, by simpa using hfit⟩
    | some m =>
      obtain ⟨hlength, -⟩ := h.fragments m hm
      rw [Session.kept_some hm] at hfit hreal ⊢
      have hsum : (m.length + bytes.length) % sizeMod = m.length + bytes.length := Nat.mod_eq_of_lt (by omega)
      refine ⟨by simp only [List.length_append]; omega, ⟨h.close_sent, fun m' hm' => ?_⟩, by simp [Session.kept, hsum]⟩
      obtain rfl := Option.some.inj hm'
      simp only [List.length_append, hsum]
      omega
  · exact ⟨by simp only; omega, h, by simp⟩

/-- What a frame brings. -/
theorem receive_course (op : UInt8) {bytes : List UInt8} (h : S.Fits max_message_size)
    (hfit : bytes.length + S.kept ≤ max_message_size) (hreal : bytes.length + S.kept < sizeMod) :
    (receive op bytes S).2.2 = true ∧ (∀ a ∈ (receive op bytes S).1, Ordinary max_message_size a) ∧
        (receive op bytes S).2.1.Fits max_message_size ∧ (receive op bytes S).2.1.kept ≤ S.kept + bytes.length ∨
      (receive op bytes S).2.2 = false ∧ Ending (receive op bytes S).1 := by
  obtain ⟨hmessage, hsession, hkept⟩ := inMessage_fits op h hfit hreal
  unfold receive
  simp only
  by_cases hclose : op &&& 0x0f = 8
  · rw [if_pos hclose]
    exact .inr ⟨rfl, hsession.close _ _⟩
  rw [if_neg hclose]
  by_cases hping : op &&& 0x0f = 9
  · rw [if_pos hping]
    refine .inl ⟨rfl, fun a ha => ?_, hsession, hkept⟩
    rcases List.mem_cons.1 ha with rfl | ha
    · exact .pong _ _ (pong_opcode op hping) hmessage
    · rw [List.mem_singleton.1 ha]
      exact .on_ping
  rw [if_neg hping]
  by_cases hpong : op &&& 0x0f = 10
  · rw [if_pos hpong]
    refine .inl ⟨rfl, fun a ha => ?_, hsession, hkept⟩
    rw [List.mem_singleton.1 ha]
    exact .on_pong
  rw [if_neg hpong]
  by_cases hfin : op &&& 0x80 = 0
  · rw [if_pos hfin]
    exact .inl ⟨rfl, fun a ha => absurd ha List.not_mem_nil, hsession, hkept⟩
  · rw [if_neg hfin]
    refine .inl ⟨rfl, fun a ha => ?_, ⟨hsession.close_sent, fun m hm => absurd hm (by simp)⟩, by simp [Session.kept]⟩
    rw [List.mem_singleton.1 ha]
    exact .on_message _ hmessage

/-- An open connection that has got `total` bytes. -/
structure Open (max_message_size total : ℕ) (C : Connection) : Prop where
  session : C.session.Fits max_message_size
  bytes : C.session.kept + C.streambuf.length ≤ total
  content : ∀ length op, C.reading = .content length op → (length + C.session.kept) % sizeMod ≤ max_message_size
  reading : C.reading ≠ .stopped

/-- The length that was announced does not overflow with the mask. -/
def Connection.NoOverflow (C : Connection) : Prop := ∀ length op, C.reading = .content length op → 4 + length < sizeMod

theorem read_message_content_course {total length : ℕ} {op : UInt8} {streambuf : List UInt8}
    (h : S.Fits max_message_size) (hbytes : S.kept + streambuf.length ≤ total) :
    Course (Open max_message_size total) (·.reading = .stopped) max_message_size
      (read_message_content max_message_size length op streambuf S).1
      (read_message_content max_message_size length op streambuf S).2 := by
  unfold read_message_content
  split
  · exact .ended [] _ rfl rfl (by simp) h.refuse
  · next hfit =>
    refine .goesOn ⟨h, hbytes, fun length' op' heq => ?_, by simp⟩ (by simp)
    obtain ⟨rfl, rfl⟩ := Reading.content.inj heq
    exact not_lt.1 hfit

theorem Open.got {total : ℕ} {C C' : Connection} {bs : List UInt8} {as : List Action}
    (h : Open max_message_size total C) (hmask : C.NoOverflow) (hwant : want C = some bs.length)
    (hreal : total + bs.length < sizeMod) (hgot : got max_message_size bs C = some (as, C')) :
    Course (Open max_message_size (total + bs.length)) (·.reading = .stopped) max_message_size as C' := by
  have hbytes : C.session.kept + (C.streambuf ++ bs).length ≤ total + bs.length := by
    have hold := h.bytes
    rw [List.length_append]
    omega
  unfold Server.got at hgot
  cases hreading : C.reading with
  | header =>
    simp only [hreading] at hgot
    split at hgot
    · next b0 b1 rest hsplit =>
      rw [hsplit, List.length_cons, List.length_cons] at hbytes
      have hrest : C.session.kept + rest.length ≤ total + bs.length := by omega
      split at hgot
      · obtain ⟨rfl, rfl⟩ := Prod.mk.inj (Option.some.inj hgot)
        exact .ended [] _ rfl rfl (by simp) (h.session.close _ _)
      · split at hgot
        · obtain ⟨rfl, rfl⟩ := Prod.mk.inj (Option.some.inj hgot)
          exact .goesOn ⟨h.session, hrest, by simp, by simp⟩ (by simp)
        · split at hgot
          · obtain ⟨rfl, rfl⟩ := Prod.mk.inj (Option.some.inj hgot)
            exact .goesOn ⟨h.session, hrest, by simp, by simp⟩ (by simp)
          · obtain ⟨rfl, rfl⟩ := Prod.mk.inj (Option.some.inj hgot)
            exact read_message_content_course h.session hrest
    · simp at hgot
  | length16 op =>
    simp only [hreading] at hgot
    obtain ⟨rfl, rfl⟩ := Prod.mk.inj (Option.some.inj hgot)
    refine read_message_content_course h.session (hbytes.trans' ?_)
    rw [List.length_drop]
    omega
  | length64 op =>
    simp only [hreading] at hgot
    obtain ⟨rfl, rfl⟩ := Prod.mk.inj (Option.some.inj hgot)
    refine read_message_content_course h.session (hbytes.trans' ?_)
    rw [List.length_drop]
    omega
  | content length op =>
    simp only [hreading] at hgot
    split at hgot
    · simp at hgot
    · obtain ⟨rfl, rfl⟩ := Prod.mk.inj (Option.some.inj hgot)
      have henough : 4 + length ≤ (C.streambuf ++ bs).length := by
        have hread : (4 + length) % sizeMod = bs.length := by simpa [want, hreading] using hwant
        rw [Nat.mod_eq_of_lt (hmask length op hreading)] at hread
        rw [List.length_append]
        omega
      have hlength : (maskBytes ((C.streambuf ++ bs).take 4) (getBytes length ((C.streambuf ++ bs).drop 4))).length =
          length := by
        rw [maskBytes_length, getBytes_of_le (by rw [List.length_drop]; omega), List.length_take, List.length_drop]
        omega
      have hreal' : length + C.session.kept < sizeMod := by omega
      have hfit := room (h.content length op hreading) hreal'
      rcases receive_course op h.session (by rw [hlength]; exact hfit) (by rw [hlength]; exact hreal') with
        ⟨hnext, has, hsession, hkept⟩ | ⟨hnext, hlast⟩
      · refine .goesOn ⟨hsession, ?_, by simp [hnext], by simp [hnext]⟩ has
        rw [hlength] at hkept
        refine (Nat.add_le_add_right hkept _).trans ?_
        rw [List.length_drop]
        omega
      · exact .ended [] _ (by simp [hnext]) rfl (by simp) hlast
  | stopped => simp [hreading] at hgot

/-- The last fragment, whatever the length that was announced. -/
theorem got_last (max_message_size : ℕ) (m : InMessage) (c : Bool) {L bs : List UInt8} (h : 4 ≤ (L ++ bs).length)
    (length : ℕ) :
    ∃ m' C, got max_message_size bs ⟨⟨some m, c⟩, L, .content length 0x80⟩ = some ([.on_message m'], C) ∧
      length ≤ m'.streambuf.length := by
  have hreceive : ∀ bytes, receive 0x80 bytes ⟨some m, c⟩ =
      ([.on_message { m with length := (m.length + bytes.length) % sizeMod, streambuf := m.streambuf ++ bytes }],
        ⟨none, c⟩, true) := fun _ => rfl
  have hgot : got max_message_size bs ⟨⟨some m, c⟩, L, .content length 0x80⟩ =
      let bytes := maskBytes ((L ++ bs).take 4) (getBytes length ((L ++ bs).drop 4))
      some ((receive 0x80 bytes ⟨some m, c⟩).1, ⟨(receive 0x80 bytes ⟨some m, c⟩).2.1, (L ++ bs).drop (4 + length),
        if (receive 0x80 bytes ⟨some m, c⟩).2.2 then .header else .stopped⟩) := if_neg (not_lt.2 h)
  simp only [hreceive] at hgot
  refine ⟨_, _, hgot, ?_⟩
  simp only [List.length_append, maskBytes_length, getBytes, List.length_take, List.length_replicate]
  omega

/-- A fragment of ten bytes, and a frame whose announced length overflows with the mask: with the limit 1000 it passes,
for its length and that of the fragment together overflow too, and its content is read from where there is none. -/
theorem limit_overflows : ∃ (L bs : List UInt8) (as : List Action) (C : Connection) (m : InMessage),
    Reads (reader 1000) (.opened L) bs as C ∧ L.length + bs.length < sizeMod ∧ .on_message m ∈ as ∧
      1000 < m.streambuf.length := by
  set S : Session := ⟨some ⟨0x81, 10, [97, 98, 99, 100, 101, 102, 103, 104, 105, 106]⟩, false⟩
  have h1 : Reads (reader 1000) (.opened [0x01, 0x8a, 0]) [0, 0] [] ⟨.opened, [0, 0, 0], .content 10 0x01⟩ :=
    .one rfl rfl
  have h2 : Reads (reader 1000) ⟨.opened, [0, 0, 0], .content 10 0x01⟩
      [0, 97, 98, 99, 100, 101, 102, 103, 104, 105, 106, 0x80, 0xff, 0xff] [] ⟨S, [0x80, 0xff, 0xff], .header⟩ :=
    .one rfl rfl
  have h3 : Reads (reader 1000) ⟨S, [0x80, 0xff, 0xff], .header⟩ [0xff, 0xff] []
      ⟨S, [0xff, 0xff, 0xff], .length64 0x80⟩ := .one rfl rfl
  -- the read of the content is of one byte
  have hlength : lengthOf [0xff, 0xff, 0xff, 0xff, 0xff, 0xff, 0xff, 0xfd] = 2 ^ 64 - 3 := by decide +kernel
  have hread : read_message_content 1000 (lengthOf [0xff, 0xff, 0xff, 0xff, 0xff, 0xff, 0xff, 0xfd]) 0x80 [0, 0, 0] S =
      ([], ⟨S, [0, 0, 0], .content (lengthOf [0xff, 0xff, 0xff, 0xff, 0xff, 0xff, 0xff, 0xfd]) 0x80⟩) :=
    if_neg (by decide +kernel)
  have h4 : Reads (reader 1000) ⟨S, [0xff, 0xff, 0xff], .length64 0x80⟩ [0xff, 0xff, 0xff, 0xff, 0xfd, 0, 0, 0] []
      ⟨S, [0, 0, 0], .content (lengthOf [0xff, 0xff, 0xff, 0xff, 0xff, 0xff, 0xff, 0xfd]) 0x80⟩ :=
    .one rfl (congrArg some hread)
  generalize lengthOf [0xff, 0xff, 0xff, 0xff, 0xff, 0xff, 0xff, 0xfd] = length at hlength h4
  obtain ⟨m, C, hgot, hlong⟩ := got_last 1000 ⟨0x81, 10, [97, 98, 99, 100, 101, 102, 103, 104, 105, 106]⟩ false
    (show 4 ≤ ([0, 0, 0] ++ [0] : List UInt8).length by decide) length
  have h5 : Reads (reader 1000) ⟨S, [0, 0, 0], .content length 0x80⟩ [0] [.on_message m] C :=
    .one (by rw [reader_want, want, hlength]; rfl) hgot
  refine ⟨_, _, _, C, m, (((h1.append h2).append h3).append h4).append h5, by decide, by simp, ?_⟩
  omega

end Server

/-! ## The client -/

namespace Client

/-- What a frame brings. -/
theorem receive_course {m : InMessage} (h : S.Fits max_message_size) (hm : m.length = m.streambuf.length)
    (hfit : m.length + S.kept ≤ max_message_size) (hreal : m.length + S.kept < sizeMod) :
    (receive m S).2.2 = true ∧ (∀ a ∈ (receive m S).1, Ordinary max_message_size a) ∧
        (receive m S).2.1.Fits max_message_size ∧ (receive m S).2.1.kept ≤ S.kept + m.length ∨
      (receive m S).2.2 = false ∧ Ending (receive m S).1 := by
  have hsize : m.streambuf.length ≤ max_message_size := by omega
  -- a fragment that is joined to those before
  have hjoined : ∀ m', S.fragmented_in_message = some m' →
      (joined m' m).length = (joined m' m).streambuf.length ∧ (joined m' m).streambuf.length ≤ max_message_size ∧
        (joined m' m).length = S.kept + m.length := by
    intro m' hm'
    obtain ⟨hlength, -⟩ := h.fragments m' hm'
    rw [Session.kept_some hm'] at hfit hreal ⊢
    have hsum : (m'.length + m.length) % sizeMod = m'.length + m.length := Nat.mod_eq_of_lt (by omega)
    simp only [joined, List.length_append, hsum, and_true]
    omega
  unfold receive
  by_cases hclose : m.fin_rsv_opcode &&& 0x0f = 8
  · rw [if_pos hclose]
    exact .inr ⟨rfl, h.close _ _⟩
  rw [if_neg hclose]
  by_cases hping : m.fin_rsv_opcode &&& 0x0f = 9
  · rw [if_pos hping]
    refine .inl ⟨rfl, fun a ha => ?_, h, Nat.le_add_right _ _⟩
    rcases List.mem_cons.1 ha with rfl | ha
    · exact .pong _ _ (pong_opcode _ hping) hsize
    · rw [List.mem_singleton.1 ha]
      exact .on_ping
  rw [if_neg hping]
  by_cases hpong : m.fin_rsv_opcode &&& 0x0f = 10
  · rw [if_pos hpong]
    refine .inl ⟨rfl, fun a ha => ?_, h, Nat.le_add_right _ _⟩
    rw [List.mem_singleton.1 ha]
    exact .on_pong
  rw [if_neg hpong]
  by_cases hfin : m.fin_rsv_opcode &&& 0x80 = 0
  · rw [if_pos hfin]
    cases hm' : S.fragmented_in_message with
    | none =>
      refine .inl ⟨rfl, fun a ha => absurd ha List.not_mem_nil, ⟨h.close_sent, fun m1 hm1 => ?_⟩, ?_⟩
      · obtain rfl := Option.some.inj hm1
        exact ⟨hm, by simp only; omega⟩
      · simp [Session.kept]
    | some m' =>
      obtain ⟨hlength, hwithin, hkept⟩ := hjoined m' hm'
      refine .inl ⟨rfl, fun a ha => absurd ha List.not_mem_nil, ⟨h.close_sent, fun m1 hm1 => ?_⟩, ?_⟩
      · obtain rfl := Option.some.inj hm1
        exact ⟨hlength, hlength ▸ hwithin⟩
      · rw [Session.kept_some rfl, hkept]
  · rw [if_neg hfin]
    have hnone : Session.Fits max_message_size { S with fragmented_in_message := none } :=
      ⟨h.close_sent, fun m hm => absurd hm (by simp)⟩
    have hkept : Session.kept { S with fragmented_in_message := none } = 0 := Session.kept_none rfl
    cases hm' : S.fragmented_in_message with
    | none =>
      refine .inl ⟨rfl, fun a ha => ?_, hnone, by simp only [hkept]; omega⟩
      rw [List.mem_singleton.1 ha]
      exact .on_message _ hsize
    | some m' =>
      refine .inl ⟨rfl, fun a ha => ?_, hnone, by simp only [hkept]; omega⟩
      rw [List.mem_singleton.1 ha]
      exact .on_message _ (hjoined m' hm').2.1

/-- What the connection knows of the buffer. -/
def Reading.num_additional_bytes : Reading → ℕ
  | .header n | .length16 n | .length64 n | .content n => n
  | .stopped => 0

/-- An open connection that has got `total` bytes. -/
structure Open (max_message_size total : ℕ) (C : Connection) : Prop where
  session : C.session.Fits max_message_size
  bytes : C.session.kept + C.in_message.streambuf.length ≤ total
  content : ∀ n, C.reading = .content n → (C.in_message.length + C.session.kept) % sizeMod ≤ max_message_size
  additional : C.reading.num_additional_bytes = C.in_message.streambuf.length
  reading : C.reading ≠ .stopped

theorem read_message_content_course {total n : ℕ} {m : InMessage} (h : S.Fits max_message_size)
    (hbytes : S.kept + m.streambuf.length ≤ total) (hn : n = m.streambuf.length) :
    Course (Open max_message_size total) (·.reading = .stopped) max_message_size
      (read_message_content max_message_size n m S).1 (read_message_content max_message_size n m S).2 := by
  unfold read_message_content
  split
  · exact .ended [] _ rfl rfl (by simp) h.refuse
  · next hfit => exact .goesOn ⟨h, hbytes, fun _ _ => not_lt.1 hfit, hn, by simp⟩ (by simp)

theorem Open.got {total : ℕ} {C C' : Connection} {bs : List UInt8} {as : List Action}
    (h : Open max_message_size total C) (hwant : want C = some bs.length) (hreal : total + bs.length < sizeMod)
    (hgot : got max_message_size bs C = some (as, C')) :
    Course (Open max_message_size (total + bs.length)) (·.reading = .stopped) max_message_size as C' := by
  have hold := h.bytes
  have hbytes : C.session.kept + (C.in_message.streambuf ++ bs).length ≤ total + bs.length := by
    rw [List.length_append]
    omega
  have hadditional := h.additional
  unfold want at hwant
  unfold Client.got at hgot
  cases hreading : C.reading with
  | header n =>
    simp only [hreading] at hgot hwant
    rw [hreading] at hadditional
    have hn : n = C.in_message.streambuf.length := hadditional
    have hbs : 2 - n = bs.length := by simpa using hwant
    split at hgot
    · next hnothing =>
      obtain ⟨rfl, rfl⟩ := Prod.mk.inj (Option.some.inj hgot)
      exact .goesOn ⟨h.session, hbytes, by simp, hnothing.2.symm, by simp⟩ (by simp)
    · split at hgot
      · next b0 b1 rest hsplit =>
        have hlength := congrArg List.length hsplit
        rw [List.length_append, List.length_cons, List.length_cons] at hlength
        rw [List.length_append] at hbytes
        have hrest : C.session.kept + rest.length ≤ total + bs.length := by omega
        have hupdated : updated n 2 = rest.length := by
          rw [updated_eq]
          omega
        split at hgot
        · obtain ⟨rfl, rfl⟩ := Prod.mk.inj (Option.some.inj hgot)
          exact .ended [] _ rfl rfl (by simp) (h.session.close _ _)
        · split at hgot
          · obtain ⟨rfl, rfl⟩ := Prod.mk.inj (Option.some.inj hgot)
            exact .goesOn ⟨h.session, hrest, by simp, hupdated, by simp⟩ (by simp)
          · split at hgot
            · obtain ⟨rfl, rfl⟩ := Prod.mk.inj (Option.some.inj hgot)
              exact .goesOn ⟨h.session, hrest, by simp, hupdated, by simp⟩ (by simp)
            · obtain ⟨rfl, rfl⟩ := Prod.mk.inj (Option.some.inj hgot)
              exact read_message_content_course h.session hrest hupdated
      · simp at hgot
  | length16 n =>
    simp only [hreading] at hgot hwant
    rw [hreading] at hadditional
    have hn : n = C.in_message.streambuf.length := hadditional
    have hbs : 2 - n = bs.length := by simpa using hwant
    obtain ⟨rfl, rfl⟩ := Prod.mk.inj (Option.some.inj hgot)
    refine read_message_content_course h.session (hbytes.trans' ?_) ?_
    · rw [List.length_drop]
      omega
    · rw [updated_eq, List.length_drop, List.length_append]
      omega
  | length64 n =>
    simp only [hreading] at hgot hwant
    rw [hreading] at hadditional
    have hn : n = C.in_message.streambuf.length := hadditional
    have hbs : 8 - n = bs.length := by simpa using hwant
    obtain ⟨rfl, rfl⟩ := Prod.mk.inj (Option.some.inj hgot)
    refine read_message_content_course h.session (hbytes.trans' ?_) ?_
    · rw [List.length_drop]
      omega
    · rw [updated_eq, List.length_drop, List.length_append]
      omega
  | content n =>
    simp only [hreading] at hgot hwant
    rw [hreading] at hadditional
    have hn : n = C.in_message.streambuf.length := hadditional
    have hbs : C.in_message.length - n = bs.length := by simpa using hwant
    split at hgot
    · simp at hgot
    · next henough =>
      rw [List.length_append] at henough hbytes
      have hreal' : C.in_message.length + C.session.kept < sizeMod := by omega
      have hfit := room (h.content n hreading) hreal'
      -- the bytes of this frame, and those of the next one
      have hparts : ∃ m m' : InMessage, (if 0 < updated n C.in_message.length then
            ({ C.in_message with streambuf := (C.in_message.streambuf ++ bs).take C.in_message.length },
              { C.in_message with streambuf := (C.in_message.streambuf ++ bs).drop C.in_message.length })
          else ({ C.in_message with streambuf := C.in_message.streambuf ++ bs }, emptyMessage)) = (m, m') ∧
          m.length = C.in_message.length ∧ m.length = m.streambuf.length ∧
          updated n C.in_message.length = m'.streambuf.length := by
        by_cases hmore : 0 < updated n C.in_message.length
        · refine ⟨_, _, if_pos hmore, rfl, ?_, ?_⟩
          · simp only [List.length_take, List.length_append]
            omega
          · simp only [updated_eq, List.length_drop, List.length_append] at hmore ⊢
            omega
        · refine ⟨_, _, if_neg hmore, rfl, ?_, ?_⟩
          · simp only [updated_eq, List.length_append] at hmore ⊢
            omega
          · simp only [updated_eq, emptyMessage, List.length_nil] at hmore ⊢
            omega
      obtain ⟨m, m', hsplit, hlength, hwhole, hnext⟩ := hparts
      rw [hsplit] at hgot
      obtain ⟨rfl, rfl⟩ := Prod.mk.inj (Option.some.inj hgot)
      have hroom : C.session.kept + m.length + m'.streambuf.length ≤ total + bs.length := by
        rw [updated_eq] at hnext
        omega
      rw [← hlength] at hfit hreal'
      rcases receive_course h.session hwhole hfit hreal' with ⟨htrue, has, hsession, hkept⟩ | ⟨hfalse, hlast⟩
      · simp only [htrue, if_true]
        exact .goesOn ⟨hsession, (Nat.add_le_add_right hkept _).trans hroom, by simp, hnext, by simp⟩ has
      · simp only [hfalse]
        exact .ended [] _ rfl rfl (by simp) hlast
  | stopped => simp [hreading] at hgot

end Client

end SimpleWeb

end Undertone
