import Undertone.Lib.Reader
import Mathlib.Data.List.Basic
import Mathlib.Data.List.GetD
import Mathlib.Data.UInt

/-!
# Connections: `server_ws.hpp` and `client_ws.hpp`

Bytes are `UInt8`, `std::size_t` is `ℕ` with its overflow written out. An `asio::async_read` of `n` bytes completes when
`n` more bytes have arrived, so the two loops `read_message` are readers of the byte stream of the socket
(`Server.reader`, `Client.reader`); their outputs are the calls of handlers and what is handed to `send`. The bytes that
came with the handshake are in the buffer from the start: the client counts them (`num_additional_bytes`), the server
does not.
-/

namespace Undertone

namespace SimpleWeb

/-- The number of values of `std::size_t`. -/
def sizeMod : ℕ := 2 ^ 64

/-! ## Frames sent -/

/-- The bytes of a length, the highest first. -/
def lengthBytes (num_bytes length : ℕ) : List UInt8 :=
  (List.range num_bytes).reverse.map fun c => UInt8.ofNat ((length >>> (8 * c)) % 256)

/-- The length of a frame; `masked` is 128 for the client and 0 for the server. -/
def lengthField (masked : UInt8) (length : ℕ) : List UInt8 :=
  if 126 ≤ length then
    if 0xffff < length then (127 + masked) :: lengthBytes 8 length else (126 + masked) :: lengthBytes 2 length
  else [UInt8.ofNat length + masked]

/-- Every byte with the byte of the mask at its place. -/
def maskBytes (mask : List UInt8) (bytes : List UInt8) : List UInt8 :=
  bytes.mapIdx fun c b => b ^^^ mask.getD (c % 4) 0

/-- What `send` of the server writes. -/
def Server.frame (out_message : List UInt8) (fin_rsv_opcode : UInt8) : List UInt8 :=
  fin_rsv_opcode :: lengthField 0 out_message.length ++ out_message

/-- What `send` of the client writes, for the random `mask`. -/
def Client.frame (mask : List UInt8) (out_message : List UInt8) (fin_rsv_opcode : UInt8) : List UInt8 :=
  fin_rsv_opcode :: lengthField 128 out_message.length ++ (mask ++ maskBytes mask out_message)

/-! ## Messages received -/

structure InMessage where
  fin_rsv_opcode : UInt8
  length : ℕ
  streambuf : List UInt8
deriving DecidableEq, Repr

/-- What a connection does with what it reads. -/
inductive Action
  | on_message (in_message : InMessage)
  | on_ping
  | on_pong
  | on_close (status : ℕ) (reason : List UInt8)
  /-- `on_error` with `message_size` -/
  | message_size
  | send (out_message : List UInt8) (fin_rsv_opcode : UInt8)
deriving DecidableEq, Repr

/-- The value of a length field that follows the header: the first of its bytes is shifted furthest. -/
def lengthOf : List UInt8 → ℕ
  | [] => 0
  | b :: length_bytes => (b.toNat <<< (8 * length_bytes.length) + lengthOf length_bytes) % sizeMod

def notMasked : List UInt8 := "message from client not masked".toUTF8.toList
def masked : List UInt8 := "message from server masked".toUTF8.toList
def tooBig : List UInt8 := "message too big".toUTF8.toList

/-- The status and the reason of a close frame; without a status it is 0. -/
def statusReason (length : ℕ) (streambuf : List UInt8) : ℕ × List UInt8 :=
  if 2 ≤ length then (((streambuf.getD 0 255).toNat <<< 8) + (streambuf.getD 1 255).toNat, streambuf.drop 2)
  else (0, streambuf)

/-- What a connection keeps from one frame to the next. -/
structure Session where
  fragmented_in_message : Option InMessage
  close_sent : Bool
deriving DecidableEq, Repr

/-- A connection that was opened. -/
def Session.opened : Session := { fragmented_in_message := none, close_sent := false }

/-- The length of what is kept of a fragmented message. -/
def Session.kept (S : Session) : ℕ := (S.fragmented_in_message.map (·.length)).getD 0

/-- `send_close`: a close frame is sent only once. -/
def send_close (status : ℕ) (reason : List UInt8) (S : Session) : List Action × Session :=
  (if S.close_sent then []
    else [.send (UInt8.ofNat (status >>> 8) :: UInt8.ofNat (status % 256) :: reason) 136],
    { S with close_sent := true })

/-- `send_close`, then `connection_close`. -/
def close (status : ℕ) (reason : List UInt8) (S : Session) : List Action × Session :=
  ((send_close status reason S).1 ++ [.on_close status reason], (send_close status reason S).2)

/-- The answer to a message that is too big. -/
def refuse (S : Session) : List Action × Session := (.message_size :: (close 1009 tooBig S).1, (close 1009 tooBig S).2)

/-- Whether a message of this length would be too big, as computed in `std::size_t`. -/
def exceeds (max_message_size length : ℕ) (S : Session) : Prop := max_message_size < (length + S.kept) % sizeMod

instance (max_message_size length : ℕ) (S : Session) : Decidable (exceeds max_message_size length S) :=
  inferInstanceAs (Decidable (_ < _))

/-! ## The server -/

namespace Server

/-- The read that a connection waits for. -/
inductive Reading
  | header
  | length16 (fin_rsv_opcode : UInt8)
  | length64 (fin_rsv_opcode : UInt8)
  | content (length : ℕ) (fin_rsv_opcode : UInt8)
  | stopped
deriving DecidableEq, Repr

structure Connection where
  session : Session
  streambuf : List UInt8
  reading : Reading
deriving DecidableEq, Repr

/-- A connection that was opened, with what the buffer has beyond the handshake. -/
def Connection.opened (streambuf : List UInt8) : Connection :=
  { session := .opened, streambuf := streambuf, reading := .header }

def read_message_content (max_message_size length : ℕ) (fin_rsv_opcode : UInt8) (streambuf : List UInt8)
    (S : Session) : List Action × Connection :=
  if exceeds max_message_size length S then
    ((refuse S).1, { session := (refuse S).2, streambuf := streambuf, reading := .stopped })
  else ([], { session := S, streambuf := streambuf, reading := .content length fin_rsv_opcode })

/-- The message that the bytes of a frame belong to. -/
def inMessage (fin_rsv_opcode : UInt8) (bytes : List UInt8) (S : Session) : InMessage × Session :=
  if fin_rsv_opcode &&& 0x80 = 0 ∨ fin_rsv_opcode &&& 0x0f = 0 then
    let in_message : InMessage :=
      match S.fragmented_in_message with
      | none => { fin_rsv_opcode := fin_rsv_opcode ||| 0x80, length := bytes.length, streambuf := bytes }
      | some m => { m with length := (m.length + bytes.length) % sizeMod, streambuf := m.streambuf ++ bytes }
    (in_message, { S with fragmented_in_message := some in_message })
  else ({ fin_rsv_opcode := fin_rsv_opcode, length := bytes.length, streambuf := bytes }, S)

/-- What follows the reading of a frame, and whether the next one is read. -/
def receive (fin_rsv_opcode : UInt8) (bytes : List UInt8) (S : Session) : List Action × Session × Bool :=
  let (in_message, S) := inMessage fin_rsv_opcode bytes S
  if fin_rsv_opcode &&& 0x0f = 8 then
    let (status, reason) := statusReason bytes.length in_message.streambuf
    ((close status reason S).1, (close status reason S).2, false)
  else if fin_rsv_opcode &&& 0x0f = 9 then
    ([.send in_message.streambuf (fin_rsv_opcode + 1), .on_ping], S, true)
  else if fin_rsv_opcode &&& 0x0f = 10 then ([.on_pong], S, true)
  else if fin_rsv_opcode &&& 0x80 = 0 then ([], S, true)
  else ([.on_message in_message], { S with fragmented_in_message := none }, true)

/-- What `length` calls of `istream.get()` give; behind the last byte it is `EOF`. -/
def getBytes (length : ℕ) (streambuf : List UInt8) : List UInt8 :=
  streambuf.take length ++ List.replicate (length - streambuf.length) 0xff

theorem getBytes_of_le {length : ℕ} {streambuf : List UInt8} (h : length ≤ streambuf.length) :
    getBytes length streambuf = streambuf.take length := by
  rw [getBytes, Nat.sub_eq_zero_of_le h, List.replicate_zero, List.append_nil]

/-- The completion of the read that the connection waits for. Where `4 + length` overflows, the read of the content is
over after the few bytes that are left of the sum, and the handler runs on what the buffer has; no outcome if this is
not even the mask, whose other bytes are then not initialised. -/
def got (max_message_size : ℕ) (bytes : List UInt8) (C : Connection) : Option (List Action × Connection) :=
  let S := C.session
  let streambuf := C.streambuf ++ bytes
  match C.reading with
  | .header =>
    match streambuf with
    | b0 :: b1 :: rest =>
      if b1 < 128 then
        some ((close 1002 notMasked S).1,
          { session := (close 1002 notMasked S).2, streambuf := rest, reading := .stopped })
      else if b1 &&& 127 = 126 then some ([], { session := S, streambuf := rest, reading := .length16 b0 })
      else if b1 &&& 127 = 127 then some ([], { session := S, streambuf := rest, reading := .length64 b0 })
      else some (read_message_content max_message_size (b1 &&& 127).toNat b0 rest S)
    | _ => none
  | .length16 fin_rsv_opcode =>
    some (read_message_content max_message_size (lengthOf (streambuf.take 2)) fin_rsv_opcode (streambuf.drop 2) S)
  | .length64 fin_rsv_opcode =>
    some (read_message_content max_message_size (lengthOf (streambuf.take 8)) fin_rsv_opcode (streambuf.drop 8) S)
  | .content length fin_rsv_opcode =>
    if streambuf.length < 4 then none
    else
      let mask := streambuf.take 4
      let bytes := maskBytes mask (getBytes length (streambuf.drop 4))
      let (actions, S, next) := receive fin_rsv_opcode bytes S
      some (actions, { session := S, streambuf := streambuf.drop (4 + length),
                       reading := if next then .header else .stopped })
  | .stopped => none

def want (C : Connection) : Option ℕ :=
  match C.reading with
  | .header => some 2
  | .length16 _ => some 2
  | .length64 _ => some 8
  | .content length _ => some ((4 + length) % sizeMod)
  | .stopped => none

/-- `read_message` and `read_message_content` of the server. -/
def reader (max_message_size : ℕ) : Reader UInt8 Connection Action where
  want := want
  got := got max_message_size

@[simp] theorem reader_want (max_message_size : ℕ) (C : Connection) : (reader max_message_size).want C = want C := rfl

@[simp] theorem reader_got (max_message_size : ℕ) (bytes : List UInt8) (C : Connection) :
    (reader max_message_size).got bytes C = got max_message_size bytes C := rfl

end Server

/-! ## The client -/

namespace Client

inductive Reading
  | header (num_additional_bytes : ℕ)
  | length16 (num_additional_bytes : ℕ)
  | length64 (num_additional_bytes : ℕ)
  | content (num_additional_bytes : ℕ)
  | stopped
deriving DecidableEq, Repr

structure Connection where
  session : Session
  in_message : InMessage
  reading : Reading
deriving DecidableEq, Repr

/-- `InMessage()`: the opcode is set before it is used. -/
def emptyMessage : InMessage := { fin_rsv_opcode := 0, length := 0, streambuf := [] }

/-- A connection that was opened, with what the buffer has beyond the handshake. -/
def Connection.opened (streambuf : List UInt8) : Connection :=
  { session := .opened, in_message := { emptyMessage with streambuf := streambuf },
    reading := .header streambuf.length }

/-- What is left to read of `n` bytes. -/
def missing (num_additional_bytes n : ℕ) : ℕ := if n < num_additional_bytes then 0 else n - num_additional_bytes

/-- `num_additional_bytes` after `n` bytes. -/
def updated (num_additional_bytes n : ℕ) : ℕ := if n < num_additional_bytes then num_additional_bytes - n else 0

def read_message_content (max_message_size num_additional_bytes : ℕ) (in_message : InMessage) (S : Session) :
    List Action × Connection :=
  if exceeds max_message_size in_message.length S then
    ((refuse S).1, { session := (refuse S).2, in_message := in_message, reading := .stopped })
  else ([], { session := S, in_message := in_message, reading := .content num_additional_bytes })

/-- The fragments before, with `m` appended. -/
def joined (fragmented_in_message m : InMessage) : InMessage :=
  { fragmented_in_message with
    length := (fragmented_in_message.length + m.length) % sizeMod
    streambuf := fragmented_in_message.streambuf ++ m.streambuf }

/-- What follows the reading of a frame, and whether the next one is read. -/
def receive (in_message : InMessage) (S : Session) : List Action × Session × Bool :=
  if in_message.fin_rsv_opcode &&& 0x0f = 8 then
    let (status, reason) := statusReason in_message.length in_message.streambuf
    ((close status reason S).1, (close status reason S).2, false)
  else if in_message.fin_rsv_opcode &&& 0x0f = 9 then
    ([.send in_message.streambuf (in_message.fin_rsv_opcode + 1), .on_ping], S, true)
  else if in_message.fin_rsv_opcode &&& 0x0f = 10 then ([.on_pong], S, true)
  else if in_message.fin_rsv_opcode &&& 0x80 = 0 then
    match S.fragmented_in_message with
    | none =>
      ([], { S with
        fragmented_in_message := some { in_message with fin_rsv_opcode := in_message.fin_rsv_opcode ||| 0x80 } }, true)
    | some m => ([], { S with fragmented_in_message := some (joined m in_message) }, true)
  else
    match S.fragmented_in_message with
    | none => ([.on_message in_message], { S with fragmented_in_message := none }, true)
    | some m => ([.on_message (joined m in_message)], { S with fragmented_in_message := none }, true)

/-- The completion of the read that the connection waits for. -/
def got (max_message_size : ℕ) (bytes : List UInt8) (C : Connection) : Option (List Action × Connection) :=
  let S := C.session
  let streambuf := C.in_message.streambuf ++ bytes
  match C.reading with
  | .header n =>
    if bytes.length = 0 ∧ streambuf.length = 0 then
      some ([], { C with in_message := { C.in_message with streambuf := streambuf }, reading := .header 0 })
    else
      match streambuf with
      | b0 :: b1 :: rest =>
        let in_message := { C.in_message with fin_rsv_opcode := b0, streambuf := rest }
        if 128 ≤ b1 then
          some ((close 1002 masked S).1,
            { session := (close 1002 masked S).2, in_message := in_message, reading := .stopped })
        else if b1 &&& 127 = 126 then
          some ([], { session := S, in_message := in_message, reading := .length16 (updated n 2) })
        else if b1 &&& 127 = 127 then
          some ([], { session := S, in_message := in_message, reading := .length64 (updated n 2) })
        else
          some (read_message_content max_message_size (updated n 2)
            { in_message with length := (b1 &&& 127).toNat } S)
      | _ => none
  | .length16 n =>
    some (read_message_content max_message_size (updated n 2)
      { C.in_message with length := lengthOf (streambuf.take 2), streambuf := streambuf.drop 2 } S)
  | .length64 n =>
    some (read_message_content max_message_size (updated n 8)
      { C.in_message with length := lengthOf (streambuf.take 8), streambuf := streambuf.drop 8 } S)
  | .content n =>
    let length := C.in_message.length
    if streambuf.length < length then none
    else
      -- bytes of the next frame in the buffer go to the message that is read next
      let (in_message, next_in_message) : InMessage × InMessage :=
        if 0 < updated n length then
          ({ C.in_message with streambuf := streambuf.take length },
            { C.in_message with streambuf := streambuf.drop length })
        else ({ C.in_message with streambuf := streambuf }, emptyMessage)
      let (actions, S, next) := receive in_message S
      some (actions, { session := S, in_message := if next then next_in_message else in_message,
                       reading := if next then .header (updated n length) else .stopped })
  | .stopped => none

def want (C : Connection) : Option ℕ :=
  match C.reading with
  | .header n => some (missing n 2)
  | .length16 n => some (missing n 2)
  | .length64 n => some (missing n 8)
  | .content n => some (missing n C.in_message.length)
  | .stopped => none

/-- `read_message` and `read_message_content` of the client. -/
def reader (max_message_size : ℕ) : Reader UInt8 Connection Action where
  want := want
  got := got max_message_size

@[simp] theorem reader_want (max_message_size : ℕ) (C : Connection) : (reader max_message_size).want C = want C := rfl

@[simp] theorem reader_got (max_message_size : ℕ) (bytes : List UInt8) (C : Connection) :
    (reader max_message_size).got bytes C = got max_message_size bytes C := rfl

end Client

end SimpleWeb

end Undertone
