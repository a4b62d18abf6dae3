import Undertone.WebSocket.Messages
import Undertone.WebSocket.Queue
import Undertone.Server

/-!
# The server on `/audio` and a client

A client and the server of `UndertoneMain.cpp` after the handshake, with a stream of bytes in each direction. The client
hands frames to `send` at any time; each side writes its queue in pieces of any size; a read completes when its bytes
have arrived. Whatever the order of these steps, the server handles the messages of the client in the order in which
they were sent, the client gets the answers in that order, and when everything has come to rest nothing is missing
(`echo_in_order`).
-/

namespace Undertone

namespace SimpleWeb

/-! ## The system -/

structure Echo where
  client : Client.Connection
  client_queue : SendQueue Unit
  server : Server.Connection
  server_queue : SendQueue Unit
  /-- bytes under way to the server and to the client -/
  up : List UInt8
  down : List UInt8

namespace Echo

/-- After the handshake. -/
def opened : Echo :=
  { client := .opened [], client_queue := .empty, server := .opened [], server_queue := .empty, up := [], down := [] }

/-- A step of a write. -/
inductive Write
  | start
  | transfer (n : ℕ)
  | complete

def Write.move : Write → SendQueue.Move Unit
  | .start => .start
  | .transfer n => .transfer n
  | .complete => .complete

inductive Move
  /-- the client calls `send`; `mask` is the random mask -/
  | send (f : Frame) (mask : List UInt8)
  | clientWrites (w : Write)
  | serverReads
  | serverWrites (w : Write)
  /-- `mask` is for an answer, if there is one -/
  | clientReads (mask : List UInt8)

/-- The handler `on_message` of `/audio`: the message is sent back. -/
def echo : Action → List Action
  | .on_message m => [.on_message m, .send (Undertone.Server.on_message m.streambuf).sent 129]
  | a => [a]

/-- The frames that are handed to `send`. -/
def sent (as : List Action) : List Frame :=
  as.filterMap fun
    | .send m op => some ⟨op, m⟩
    | _ => none

def sendAll (bytes : List (List UInt8)) (Q : SendQueue Unit) : SendQueue Unit :=
  bytes.foldl (fun Q b => Q.send ⟨b, ()⟩) Q

/-- The answer of a step is what the connection did. -/
def step (maxServer maxClient : ℕ) : Move → Echo → Option (List Action × Echo)
  | .send f mask, s =>
    some ([.send f.payload f.fin_rsv_opcode],
      { s with client_queue := s.client_queue.send ⟨Client.frame mask f.payload f.fin_rsv_opcode, ()⟩ })
  | .clientWrites w, s =>
    match SendQueue.step w.move s.client_queue with
    | some (a, Q) => some ([], { s with client_queue := Q, up := s.up ++ a.bytes })
    | none => none
  | .serverReads, s =>
    match Server.want s.server with
    | some n =>
      if n ≤ s.up.length then
        match Server.got maxServer (s.up.take n) s.server with
        | some (as, C) =>
          let as := as.flatMap echo
          some (as, { s with
            server := C, up := s.up.drop n
            server_queue := sendAll ((sent as).map fun f => Server.frame f.payload f.fin_rsv_opcode) s.server_queue })
        | none => none
      else none
    | none => none
  | .serverWrites w, s =>
    match SendQueue.step w.move s.server_queue with
    | some (a, Q) => some ([], { s with server_queue := Q, down := s.down ++ a.bytes })
    | none => none
  | .clientReads mask, s =>
    match Client.want s.client with
    | some n =>
      if n ≤ s.down.length then
        match Client.got maxClient (s.down.take n) s.client with
        | some (as, C) =>
          some (as, { s with
            client := C, down := s.down.drop n
            client_queue :=
              sendAll ((sent as).map fun f => Client.frame mask f.payload f.fin_rsv_opcode) s.client_queue })
        | none => none
      else none
    | none => none

/-! ## What a run did -/

abbrev Log := List (Move × List Action)

/-- What the server did with what it read. -/
def serverDid (log : Log) : List Action :=
  log.flatMap fun e => match e.1 with
    | .serverReads => e.2
    | _ => []

/-- What the client did with what it read. -/
def clientDid (log : Log) : List Action :=
  log.flatMap fun e => match e.1 with
    | .clientReads _ => e.2
    | _ => []

/-- The frames of the client, with their masks. -/
def clientSent (log : Log) : List (Frame × List UInt8) :=
  log.flatMap fun e => match e.1 with
    | .send _ mask => (sent e.2).map (·, mask)
    | .clientReads mask => (sent e.2).map (·, mask)
    | _ => []

/-- Nothing is waiting, nothing is under way, and no read can complete. -/
structure AtRest (s : Echo) : Prop where
  client_queue : s.client_queue.send_queue = []
  server_queue : s.server_queue.send_queue = []
  up : s.up = []
  down : s.down = []
  server : Server.want s.server ≠ some 0
  client : Client.want s.client ≠ some 0

section Logs

variable {log : Log}

@[simp] theorem serverDid_snoc (m : Move) (as : List Action) :
    serverDid (log ++ [(m, as)]) = serverDid log ++ (match m with
      | .serverReads => as
      | _ => []) := by
  simp [serverDid]

@[simp] theorem clientDid_snoc (m : Move) (as : List Action) :
    clientDid (log ++ [(m, as)]) = clientDid log ++ (match m with
      | .clientReads _ => as
      | _ => []) := by
  simp [clientDid]

@[simp] theorem clientSent_snoc (m : Move) (as : List Action) :
    clientSent (log ++ [(m, as)]) = clientSent log ++ (match m with
      | .send _ mask => (sent as).map (·, mask)
      | .clientReads mask => (sent as).map (·, mask)
      | _ => []) := by
  simp [clientSent]

theorem sent_append (as bs : List Action) : sent (as ++ bs) = sent as ++ sent bs := List.filterMap_append

end Logs

/-! ## Handing over several messages -/

section SendAll

variable {Q : SendQueue Unit}

theorem sendAll_live (bytes : List (List UInt8)) (h : Q.Live) : (sendAll bytes Q).Live := by
  induction bytes generalizing Q with
  | nil => exact h
  | cons b bytes ih => exact ih (SendQueue.step_live (m := .send ⟨b, ()⟩) rfl h)

theorem sendAll_rest (bytes : List (List UInt8)) (h : Q.Live) : (sendAll bytes Q).rest = Q.rest ++ bytes.flatten := by
  induction bytes generalizing Q with
  | nil => simp [sendAll]
  | cons b bytes ih =>
    have hb : (Q.send ⟨b, ()⟩).Live := SendQueue.step_live (m := .send ⟨b, ()⟩) rfl h
    rw [sendAll, List.foldl_cons, ← sendAll, ih hb, SendQueue.rest_send h, List.append_assoc, List.flatten_cons]

theorem write_step {w : Write} {a : SendQueue.Answer Unit} {Q' : SendQueue Unit}
    (h : SendQueue.step w.move Q = some (a, Q')) (hlive : Q.Live) : Q'.Live ∧ Q.rest = a.bytes ++ Q'.rest := by
  refine ⟨SendQueue.step_live h hlive, SendQueue.step_rest h ?_ ?_⟩
  · cases w <;> simp [Write.move]
  · cases w <;> simp [Write.move]

end SendAll

/-! ## The invariant -/

/-- Each side has read a part of what the other one sent; the rest is under way or waits. -/
structure Inv (maxServer maxClient : ℕ) (log : Log) (s : Echo) : Prop where
  client_live : s.client_queue.Live
  server_live : s.server_queue.Live
  up : ∃ bs as, Reads (Server.reader maxServer) (.opened []) bs as s.server ∧ serverDid log = as.flatMap echo ∧
    Server.wire (clientSent log) = bs ++ (s.up ++ s.client_queue.rest)
  down : ∃ bs, Reads (Client.reader maxClient) (.opened []) bs (clientDid log) s.client ∧
    Client.wire (sent (serverDid log)) = bs ++ (s.down ++ s.server_queue.rest)

section Steps

variable {maxServer maxClient : ℕ} {log : Log} {s s' : Echo} {as : List Action}

theorem wire_append (fs gs : List (Frame × List UInt8)) : Server.wire (fs ++ gs) = Server.wire fs ++ Server.wire gs :=
  List.flatMap_append

theorem client_wire_append (fs gs : List Frame) : Client.wire (fs ++ gs) = Client.wire fs ++ Client.wire gs :=
  List.flatMap_append

theorem inv_send {f : Frame} {mask : List UInt8} (h : step maxServer maxClient (.send f mask) s = some (as, s'))
    (hinv : Inv maxServer maxClient log s) : Inv maxServer maxClient (log ++ [(.send f mask, as)]) s' := by
  obtain ⟨rfl, rfl⟩ := Prod.mk.inj (Option.some.inj h)
  obtain ⟨bs, as, hreads, hdid, hwire⟩ := hinv.up
  refine ⟨SendQueue.step_live (m := .send ⟨_, ()⟩) rfl hinv.client_live, hinv.server_live,
    ⟨bs, as, hreads, by simpa using hdid, ?_⟩, by simpa using hinv.down⟩
  rw [clientSent_snoc, wire_append, hwire, SendQueue.rest_send hinv.client_live]
  simp [sent, Server.wire]

theorem inv_clientWrites {w : Write} (h : step maxServer maxClient (.clientWrites w) s = some (as, s'))
    (hinv : Inv maxServer maxClient log s) : Inv maxServer maxClient (log ++ [(.clientWrites w, as)]) s' := by
  simp only [step] at h
  split at h
  · rename_i a Q hstep
    obtain ⟨rfl, rfl⟩ := Prod.mk.inj (Option.some.inj h)
    obtain ⟨hlive, hrest⟩ := write_step hstep hinv.client_live
    obtain ⟨bs, as, hreads, hdid, hwire⟩ := hinv.up
    refine ⟨hlive, hinv.server_live, ⟨bs, as, hreads, by simpa using hdid, ?_⟩, by simpa using hinv.down⟩
    rw [clientSent_snoc, List.append_nil, hwire, hrest, List.append_assoc]
  · cases h

theorem inv_serverWrites {w : Write} (h : step maxServer maxClient (.serverWrites w) s = some (as, s'))
    (hinv : Inv maxServer maxClient log s) : Inv maxServer maxClient (log ++ [(.serverWrites w, as)]) s' := by
  simp only [step] at h
  split at h
  · rename_i a Q hstep
    obtain ⟨rfl, rfl⟩ := Prod.mk.inj (Option.some.inj h)
    obtain ⟨hlive, hrest⟩ := write_step hstep hinv.server_live
    obtain ⟨bs, hreads, hwire⟩ := hinv.down
    refine ⟨hinv.client_live, hlive, by simpa using hinv.up, ⟨bs, by simpa using hreads, ?_⟩⟩
    rw [serverDid_snoc, List.append_nil, hwire, hrest, List.append_assoc]
  · cases h

theorem inv_serverReads (h : step maxServer maxClient .serverReads s = some (as, s'))
    (hinv : Inv maxServer maxClient log s) : Inv maxServer maxClient (log ++ [(.serverReads, as)]) s' := by
  simp only [step] at h
  split at h
  · rename_i n hwant
    split_ifs at h with hn
    split at h
    · rename_i acts C hgot
      obtain ⟨rfl, rfl⟩ := Prod.mk.inj (Option.some.inj h)
      obtain ⟨bs, as, hreads, hdid, hwire⟩ := hinv.up
      obtain ⟨cs, hreads', hwire'⟩ := hinv.down
      have hone : Reads (Server.reader maxServer) s.server (s.up.take n) acts C :=
        Reads.one (by rw [Server.reader_want, hwant, List.length_take_of_le hn]) hgot
      refine ⟨hinv.client_live, sendAll_live _ hinv.server_live,
        ⟨bs ++ s.up.take n, as ++ acts, hreads.append hone, ?_, ?_⟩, ⟨cs, by simpa using hreads', ?_⟩⟩
      · simp [hdid]
      · rw [clientSent_snoc, List.append_nil, hwire]
        simp only [List.append_assoc]
        rw [← List.append_assoc (s.up.take n), List.take_append_drop]
      · rw [serverDid_snoc, sent_append, client_wire_append, hwire', sendAll_rest _ hinv.server_live]
        simp only [List.append_assoc]
        rfl
    · cases h
  · cases h

theorem inv_clientReads {mask : List UInt8} (h : step maxServer maxClient (.clientReads mask) s = some (as, s'))
    (hinv : Inv maxServer maxClient log s) : Inv maxServer maxClient (log ++ [(.clientReads mask, as)]) s' := by
  simp only [step] at h
  split at h
  · rename_i n hwant
    split_ifs at h with hn
    split at h
    · rename_i acts C hgot
      obtain ⟨rfl, rfl⟩ := Prod.mk.inj (Option.some.inj h)
      obtain ⟨bs, as, hreads, hdid, hwire⟩ := hinv.up
      obtain ⟨cs, hreads', hwire'⟩ := hinv.down
      have hone : Reads (Client.reader maxClient) s.client (s.down.take n) acts C :=
        Reads.one (by rw [Client.reader_want, hwant, List.length_take_of_le hn]) hgot
      refine ⟨sendAll_live _ hinv.client_live, hinv.server_live, ⟨bs, as, hreads, by simpa using hdid, ?_⟩,
        ⟨cs ++ s.down.take n, ?_, ?_⟩⟩
      · rw [clientSent_snoc, wire_append, hwire, sendAll_rest _ hinv.client_live]
        simp only [List.append_assoc]
        simp [Server.wire, List.flatMap_def, Function.comp_def]
      · rw [clientDid_snoc]
        exact hreads'.append hone
      · rw [serverDid_snoc, List.append_nil, hwire']
        simp only [List.append_assoc]
        rw [← List.append_assoc (s.down.take n), List.take_append_drop]
    · cases h
  · cases h

theorem opened_inv : Inv maxServer maxClient [] opened :=
  ⟨SendQueue.empty_live, SendQueue.empty_live, ⟨[], [], .nil _, rfl, rfl⟩, ⟨[], .nil _, rfl⟩⟩

theorem run_inv (h : Run (step maxServer maxClient) opened log s) : Inv maxServer maxClient log s := by
  refine h.rule (Inv maxServer maxClient) opened_inv ?_
  intro log s m as s' hinv hstep
  cases m with
  | send f mask => exact inv_send hstep hinv
  | clientWrites w => exact inv_clientWrites hstep hinv
  | serverReads => exact inv_serverReads hstep hinv
  | serverWrites w => exact inv_serverWrites hstep hinv
  | clientReads mask => exact inv_clientReads hstep hinv

end Steps

/-! ## The answers -/

/-- What the client is answered. -/
def answer : Delivery → List Delivery
  | .message _ d => [.message 1 d]
  | .ping d => [.pong d]
  | _ => []

section Answers

variable {limit : ℕ} {p p' : Pending} {f : Frame} {fs : List Frame} {ds : List Delivery}

/-- What the server does with deliveries, and its answers. -/
def handled (ds : List Delivery) : List Action := (ds.flatMap (actions false)).flatMap echo

theorem handled_append (ds ds' : List Delivery) : handled (ds ++ ds') = handled ds ++ handled ds' := by
  simp [handled]

theorem meaning_answers (hm : Meaning p f ds p') (hsize : f.payload.length + p.size ≤ limit) :
    (sent (handled ds) = [] ∧ ds.flatMap answer = []) ∨
      ∃ g, sent (handled ds) = [g] ∧ Meaning none g (ds.flatMap answer) none ∧ g.payload.length ≤ limit := by
  have hone : ∀ d : List UInt8, Meaning none ⟨0x81, d⟩ [.message 1 d] none := fun d => .whole 1 d (by decide)
  cases hm with
  | whole op d hop => exact .inr ⟨_, rfl, hone d, hsize⟩
  | first op d hop => exact .inl ⟨rfl, rfl⟩
  | continuation op b d => exact .inl ⟨rfl, rfl⟩
  | last op b d =>
    refine .inr ⟨_, rfl, hone (b ++ d), ?_⟩
    have hsize : d.length + b.length ≤ limit := hsize
    show (b ++ d).length ≤ limit
    rw [List.length_append]
    omega
  | ping p d => exact .inr ⟨_, rfl, .pong none d, Nat.le_trans (Nat.le_add_right _ _) hsize⟩
  | pong p d => exact .inl ⟨rfl, rfl⟩

/-- The answers to what the frames deliver are frames that deliver the answers. -/
theorem delivers_answers (h : Delivers limit p fs ds) (hclose : ∀ d, Delivery.close d ∉ ds) :
    Delivers limit none (sent (handled ds)) (ds.flatMap answer) := by
  induction h with
  | nil p => exact .nil none
  | @frame p p' f fs ds ds' hm hsize _ ih =>
    have ih := ih fun d hd => hclose d (List.mem_append_right _ hd)
    rw [handled_append, sent_append, List.flatMap_append]
    rcases meaning_answers hm hsize with ⟨hnone, hans⟩ | ⟨g, hg, hmean, hlen⟩
    · rwa [hnone, hans]
    · rw [hg]
      exact Delivers.frame hmean hlen ih
  | close d hsize => exact absurd (List.mem_singleton_self _) (hclose d)

end Answers

/-! ## Main result -/

/-- What the client does with its answers. -/
def answered (ds : List Delivery) : List Action := (ds.flatMap answer).flatMap (actions false)

/-- In every run the server handles what the frames of the client deliver, and the client gets the answers, in order and
each once; when everything is at rest, nothing is missing. -/
theorem echo_in_order {limit maxServer maxClient : ℕ} {log : Log} {s : Echo} {ds : List Delivery}
    (hserver : limit ≤ maxServer ∧ maxServer < sizeMod) (hclient : limit ≤ maxClient ∧ maxClient < sizeMod)
    (hlimit : 4 + limit < sizeMod) (h : Run (step maxServer maxClient) opened log s)
    (hsent : Delivers limit none ((clientSent log).map Prod.fst) ds) (hclose : ∀ d, Delivery.close d ∉ ds)
    (hmask : ∀ f ∈ clientSent log, f.2.length = 4) :
    serverDid log <+: handled ds ∧ clientDid log <+: answered ds ∧
      (s.AtRest → serverDid log = handled ds ∧ clientDid log = answered ds) := by
  have hinv := run_inv h
  obtain ⟨bs, as, hreads, hdid, hwire⟩ := hinv.up
  obtain ⟨cs, hreads', hwire'⟩ := hinv.down
  -- the server, up to where it has read
  obtain ⟨C, hall, hwait⟩ := Server.opened_delivers hserver.1 hserver.2 hlimit hmask hsent
  rw [hwire] at hall
  obtain ⟨o, ho, hout⟩ := hall.of_append hwait hreads
  have hhandled : handled ds = serverDid log ++ o.flatMap echo := by
    rw [handled, hout, List.flatMap_append, hdid]
  -- the client, on the answers so far
  obtain ⟨C', hall', hwait'⟩ := Client.opened_delivers hclient.1 hclient.2 (delivers_answers hsent hclose)
  rw [hhandled, sent_append, client_wire_append, hwire', List.append_assoc] at hall'
  obtain ⟨o', ho', hout'⟩ := hall'.of_append hwait' hreads'
  refine ⟨⟨_, hhandled.symm⟩, ⟨o', hout'.symm⟩, fun hrest => ?_⟩
  have hnil : ∀ Q : SendQueue Unit, Q.send_queue = [] → Q.rest = [] := fun Q hQ => by simp [SendQueue.rest, hQ]
  rw [hrest.up, hnil _ hrest.client_queue] at ho
  obtain rfl : o = [] := (ho.nothing hrest.server).1
  rw [List.flatMap_nil, List.append_nil] at hhandled
  rw [hrest.down, hnil _ hrest.server_queue] at ho'
  obtain rfl : o' = [] := (ho'.nothing hrest.client).1
  exact ⟨hhandled.symm, (hout'.trans (List.append_nil _)).symm⟩

/-- Two messages with a ping between them, to the last answer. -/
theorem echo_in_order_ping :
    ∃ log s, Run (step 1000 1000) opened log s ∧
      clientDid log = answered [.message 1 [104, 105], .ping [7], .message 1 [98]] := by
  obtain ⟨log, s, hrun, heq⟩ := Run.exists_of_execute (step 1000 1000) opened
    [.send ⟨0x81, [104, 105]⟩ [1, 2, 3, 4], .send ⟨0x89, [7]⟩ [5, 6, 7, 8], .clientWrites .start,
      .clientWrites (.transfer 5), .serverReads, .clientWrites (.transfer 3), .serverReads, .clientWrites .complete,
      .clientWrites .start, .serverWrites .start, .serverWrites (.transfer 4), .clientReads [],
      .send ⟨0x81, [98]⟩ [1, 1, 1, 1], .clientWrites (.transfer 7), .clientWrites .complete, .serverReads, .serverReads,
      .serverWrites .complete, .serverWrites .start, .serverWrites (.transfer 3), .serverWrites .complete,
      .clientReads [], .clientReads [], .clientReads [], .clientWrites .start, .clientWrites (.transfer 7),
      .clientWrites .complete, .serverReads, .serverReads, .serverWrites .start, .serverWrites (.transfer 3),
      .serverWrites .complete, .clientReads [], .clientReads []]
    (fun r => (clientSent r.1, decide (
      (r.2.client_queue.send_queue.length = 0 ∧ r.2.server_queue.send_queue.length = 0) ∧
      (r.2.up = [] ∧ r.2.down = []) ∧ Server.want r.2.server = some 2 ∧ Client.want r.2.client = some 2)))
    ([(⟨0x81, [104, 105]⟩, [1, 2, 3, 4]), (⟨0x89, [7]⟩, [5, 6, 7, 8]), (⟨0x81, [98]⟩, [1, 1, 1, 1])], true)
    (by decide +kernel)
  obtain ⟨hclient, hrest⟩ := Prod.mk.inj heq
  obtain ⟨⟨hqueue, hqueue'⟩, ⟨hup, hdown⟩, hwant, hwant'⟩ := of_decide_eq_true hrest
  have hsent : Delivers 2 none ((clientSent log).map Prod.fst) [.message 1 [104, 105], .ping [7], .message 1 [98]] := by
    rw [hclient]
    exact .frame (.whole 1 [104, 105] (by decide)) (by decide) (.frame (.ping none [7]) (by decide)
      (.frame (.whole 1 [98] (by decide)) (by decide) (.nil none)))
  exact ⟨log, s, hrun, ((echo_in_order ⟨by decide, by decide⟩ ⟨by decide, by decide⟩ (by decide) hrun hsent (by simp)
    (by rw [hclient]; decide)).2.2 ⟨List.length_eq_zero_iff.1 hqueue, List.length_eq_zero_iff.1 hqueue', hup, hdown,
      by simp [hwant], by simp [hwant']⟩).2⟩

end Echo

end SimpleWeb

end Undertone
