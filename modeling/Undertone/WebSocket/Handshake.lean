import Mathlib.Data.Nat.Digits.Defs
import Undertone.WebSocket.Defs
import Undertone.WebSocket.Http

/-!
# The handshake: `server_ws.hpp`, `client_ws.hpp`

The client asks for an upgrade with a random key, the server answers with the digest of the key, and either of them goes
on to its read loop. The server reads of the request what the client was configured with, the client opens the
connection if the answer is for its own key, and both leave in the buffer what came after the empty line
(`handshake_agrees`). The hash and the base 64 code of the crypto library are parameters.
-/

namespace Undertone

namespace SimpleWeb

/-! ## The crypto library -/

structure Crypto where
  sha1 : List UInt8 → List UInt8
  base64_encode : List UInt8 → List UInt8
  base64_decode : List UInt8 → List UInt8

/-- A digest comes through the code, and the code is one word. -/
structure Crypto.Sound (C : Crypto) : Prop where
  decodes : ∀ input, C.base64_decode (C.base64_encode (C.sha1 input)) = C.sha1 input
  word : ∀ input, lf ∉ C.base64_encode input ∧ space ∉ C.base64_encode input

def ws_magic_string : List UInt8 := text "258EAFA5-E914-47DA-95CA-C5AB0DC85B11"

/-! ## Status codes -/

def status_code_strings : List (ℕ × List UInt8) :=
  [(0, text ""), (100, text "100 Continue"), (101, text "101 Switching Protocols"), (102, text "102 Processing"),
   (200, text "200 OK"), (201, text "201 Created"), (202, text "202 Accepted"),
   (203, text "203 Non-Authoritative Information"), (204, text "204 No Content"), (205, text "205 Reset Content"),
   (206, text "206 Partial Content"), (207, text "207 Multi-Status"), (208, text "208 Already Reported"),
   (226, text "226 IM Used"), (300, text "300 Multiple Choices"), (301, text "301 Moved Permanently"),
   (302, text "302 Found"), (303, text "303 See Other"), (304, text "304 Not Modified"), (305, text "305 Use Proxy"),
   (306, text "306 Switch Proxy"), (307, text "307 Temporary Redirect"), (308, text "308 Permanent Redirect"),
   (400, text "400 Bad Request"), (401, text "401 Unauthorized"), (402, text "402 Payment Required"),
   (403, text "403 Forbidden"), (404, text "404 Not Found"), (405, text "405 Method Not Allowed"),
   (406, text "406 Not Acceptable"), (407, text "407 Proxy Authentication Required"),
   (408, text "408 Request Timeout"), (409, text "409 Conflict"), (410, text "410 Gone"),
   (411, text "411 Length Required"), (412, text "412 Precondition Failed"), (413, text "413 Payload Too Large"),
   (414, text "414 URI Too Long"), (415, text "415 Unsupported Media Type"), (416, text "416 Range Not Satisfiable"),
   (417, text "417 Expectation Failed"), (418, text "418 I'm a teapot"), (421, text "421 Misdirected Request"),
   (422, text "422 Unprocessable Entity"), (423, text "423 Locked"), (424, text "424 Failed Dependency"),
   (426, text "426 Upgrade Required"), (428, text "428 Precondition Required"), (429, text "429 Too Many Requests"),
   (431, text "431 Request Header Fields Too Large"), (451, text "451 Unavailable For Legal Reasons"),
   (500, text "500 Internal Server Error"), (501, text "501 Not Implemented"), (502, text "502 Bad Gateway"),
   (503, text "503 Service Unavailable"), (504, text "504 Gateway Timeout"),
   (505, text "505 HTTP Version Not Supported"),
   (506, text "506 Variant Also Negotiates"), (507, text "507 Insufficient Storage"), (508, text "508 Loop Detected"),
   (510, text "510 Not Extended"), (511, text "511 Network Authentication Required")]

/-- The text of a status code; any number can be cast to one. -/
def status_code (code : ℕ) : List UInt8 :=
  ((status_code_strings.find? fun entry => entry.1 = code).map Prod.snd).getD []

/-! ## The client -/

/-- What a client was constructed and configured with. -/
structure SocketClient where
  host : List UInt8
  port : ℕ
  default_port : ℕ
  path : List UInt8
  proxy_server : List UInt8
  header : CaseInsensitiveMultimap

/-- `std::to_string` -/
def to_string (n : ℕ) : List UInt8 := (Nat.toDigits 10 n).map Char.toUInt8

/-- A proxy gets the whole address. -/
def SocketClient.corrected_path (K : SocketClient) : List UInt8 :=
  if K.proxy_server = [] then K.path else text "http://" ++ K.host ++ colon :: to_string K.port ++ K.path

/-- What `upgrade` writes. -/
def SocketClient.upgrade (H : Hashing) (K : SocketClient) (nonce_base64 : List UInt8) : List UInt8 :=
  text "GET " ++ K.corrected_path ++ text " HTTP/1.1\r\n" ++
    text "Host: " ++ K.host ++ (if K.port ≠ K.default_port then colon :: to_string K.port else []) ++ text "\r\n" ++
    text "Upgrade: websocket\r\n" ++
    text "Connection: Upgrade\r\n" ++
    text "Sec-WebSocket-Key: " ++ nonce_base64 ++ text "\r\n" ++
    text "Sec-WebSocket-Version: 13\r\n" ++
    (H.order K.header).flatMap (fun field => field.1 ++ text ": " ++ field.2 ++ text "\r\n") ++
    text "\r\n"

/-- What the client does with the answer. -/
inductive Client.Outcome
  | protocol_error
  | permission_denied
  | opened (connection : Client.Connection)
deriving DecidableEq, Repr

/-- The completion of the read of the answer; `none` while there is no empty line. -/
def Client.handshake (H : Hashing) (C : Crypto) (nonce_base64 streambuf : List UInt8) : Option Client.Outcome :=
  (read_until streambuf).map fun bytes_transferred =>
    let num_additional_bytes := streambuf.length - bytes_transferred
    match ResponseMessage.parse streambuf with
    | none => .protocol_error
    | some (response, streambuf) =>
      if substr response.status_code 0 4 ≠ text "101 " then .permission_denied
      else
        match H.find response.header (text "Sec-WebSocket-Accept") with
        | none => .protocol_error
        | some field =>
          if C.base64_decode field.2 = C.sha1 (nonce_base64 ++ ws_magic_string) then
            .opened { session := .opened, in_message := { Client.emptyMessage with streambuf := streambuf },
                      reading := .header num_additional_bytes }
          else .protocol_error

/-! ## The server -/

/-- The pattern of the path, and what the program does with the header of the answer. -/
structure Endpoint where
  regex_match : List UInt8 → Bool
  on_handshake : Option (RequestMessage → CaseInsensitiveMultimap → ℕ × CaseInsensitiveMultimap)

structure SocketServer where
  header : CaseInsensitiveMultimap
  endpoint : List Endpoint

/-- The digest that the answer to a key carries. -/
def accept (C : Crypto) (key : List UInt8) : List UInt8 := C.base64_encode (C.sha1 (key ++ ws_magic_string))

/-- The header of the answer to a key, and the status; without `on_handshake` protocols are switched. -/
def SocketServer.answer (C : Crypto) (S : SocketServer) (e : Endpoint) (request : RequestMessage) (key : List UInt8) :
    ℕ × CaseInsensitiveMultimap :=
  let response_header := (text "Sec-WebSocket-Accept", accept C key) ::ₘ (text "Connection", text "Upgrade") ::ₘ
    (text "Upgrade", text "websocket") ::ₘ S.header
  match e.on_handshake with
  | none => (101, response_header)
  | some on_handshake => on_handshake request response_header

/-- What `write_handshake` writes, and the status; `none` where no endpoint has the path. -/
def SocketServer.write_handshake (H : Hashing) (C : Crypto) (S : SocketServer) (request : RequestMessage) :
    Option (List UInt8 × ℕ) :=
  (S.endpoint.find? fun e => e.regex_match request.path).map fun e =>
    let (status, response_header) :=
      match H.find request.header (text "Sec-WebSocket-Key") with
      | none => (426, 0)
      | some field => S.answer C e request field.2
    if status = 101 then
      (text "HTTP/1.1 101 Web Socket Protocol Handshake\r\n" ++
        (H.order response_header).flatMap (fun field => field.1 ++ text ": " ++ field.2 ++ text "\r\n") ++
        text "\r\n", status)
    else (text "HTTP/1.1 " ++ status_code status ++ text "\r\n\r\n", status)

/-- `read_handshake`: the answer, and the connection if it is opened once the answer is written; `none` where nothing is
answered. -/
def Server.handshake (H : Hashing) (C : Crypto) (S : SocketServer) (streambuf : List UInt8) :
    Option (List UInt8 × Option Server.Connection) :=
  (read_until streambuf).bind fun _ => (RequestMessage.parse streambuf).bind fun (request, streambuf) =>
    (S.write_handshake H C request).map fun (response, status) =>
      (response, if status = 101 then some (Server.Connection.opened streambuf) else none)

/-- The path `^/audio/?$`, with an answer that is left as it is. -/
def audioEndpoint : Endpoint where
  regex_match path := path = text "/audio" ∨ path = text "/audio/"
  on_handshake := some fun _ response_header => (101, response_header)

/-- The server of the program. -/
def serverwss : SocketServer := { header := 0, endpoint := [audioEndpoint] }

/-! ## The empty line -/

section Lines

variable {line rest : List UInt8}

theorem read_until_skip (hline : lf ∉ line) (hrest : ¬ [cr, lf] <+: rest) :
    read_until (line ++ cr :: lf :: rest) = (read_until rest).map (line.length + 2 + ·) := by
  induction line with
  | nil =>
    have h1 : ¬ [cr, lf, cr, lf].isPrefixOf (cr :: lf :: rest) = true := by
      rw [List.isPrefixOf_iff_prefix]
      simpa [List.cons_prefix_cons] using hrest
    have h2 : ¬ [cr, lf, cr, lf].isPrefixOf (lf :: rest) = true := by
      rw [List.isPrefixOf_iff_prefix, List.cons_prefix_cons]
      exact fun h => absurd h.1 (by decide)
    rw [List.nil_append, read_until, if_neg h1, read_until, if_neg h2]
    cases read_until rest with
    | none => rfl
    | some n =>
      simp only [Option.map_some, List.length_nil]
      exact congrArg some (by omega)
  | cons b line ih =>
    obtain ⟨hb, hline⟩ : lf ≠ b ∧ lf ∉ line := by simpa using hline
    have h1 : ¬ [cr, lf, cr, lf].isPrefixOf (b :: (line ++ cr :: lf :: rest)) = true := by
      rw [List.isPrefixOf_iff_prefix, List.cons_prefix_cons]
      rintro ⟨-, h⟩
      cases line with
      | nil => exact absurd (List.cons_prefix_cons.1 h).1 (by decide)
      | cons b' line => exact hline (by rw [(List.cons_prefix_cons.1 h).1]; exact List.mem_cons_self)
    rw [List.cons_append, read_until, if_neg h1, ih hline]
    cases read_until rest with
    | none => rfl
    | some n =>
      simp only [Option.map_some, List.length_cons]
      exact congrArg some (by omega)

theorem read_until_hit (hline : lf ∉ line) :
    read_until (line ++ cr :: lf :: cr :: lf :: rest) = some (line.length + 4) := by
  induction line with
  | nil =>
    have h1 : [cr, lf, cr, lf].isPrefixOf (cr :: lf :: cr :: lf :: rest) = true := by
      rw [List.isPrefixOf_iff_prefix]
      exact ⟨rest, rfl⟩
    rw [List.nil_append, read_until, if_pos h1]
    rfl
  | cons b line ih =>
    obtain ⟨hb, hline⟩ : lf ≠ b ∧ lf ∉ line := by simpa using hline
    have h1 : ¬ [cr, lf, cr, lf].isPrefixOf (b :: (line ++ cr :: lf :: cr :: lf :: rest)) = true := by
      rw [List.isPrefixOf_iff_prefix, List.cons_prefix_cons]
      rintro ⟨-, h⟩
      cases line with
      | nil => exact absurd (List.cons_prefix_cons.1 h).1 (by decide)
      | cons b' line => exact hline (by rw [(List.cons_prefix_cons.1 h).1]; exact List.mem_cons_self)
    rw [List.cons_append, read_until, if_neg h1, ih hline]
    simp only [Option.map_some, List.length_cons]
    exact congrArg some (by omega)

/-- The first empty line is the one after the lines. -/
theorem read_until_lines {lines : List (List UInt8)} (hlines : ∀ line ∈ lines, line ≠ [] ∧ lf ∉ line)
    (hne : lines ≠ []) (rest : List UInt8) :
    read_until (lines.flatMap crlf ++ (crlf [] ++ rest)) = some ((lines.flatMap crlf).length + 2) := by
  induction lines with
  | nil => exact absurd rfl hne
  | cons line lines ih =>
    obtain ⟨-, hline⟩ := hlines line List.mem_cons_self
    have hlater : ∀ line ∈ lines, line ≠ [] ∧ lf ∉ line := fun l hl => hlines l (List.mem_cons_of_mem _ hl)
    cases lines with
    | nil =>
      have hsplit : [line].flatMap crlf ++ (crlf [] ++ rest) = line ++ cr :: lf :: cr :: lf :: rest := by simp [crlf]
      rw [hsplit, read_until_hit hline]
      simp [crlf]
    | cons line' lines =>
      obtain ⟨hne', hline'⟩ := hlater line' List.mem_cons_self
      have hsplit : (line :: line' :: lines).flatMap crlf ++ (crlf [] ++ rest) =
          line ++ cr :: lf :: ((line' :: lines).flatMap crlf ++ (crlf [] ++ rest)) := by simp [crlf]
      have hstart : ¬ [cr, lf] <+: (line' :: lines).flatMap crlf ++ (crlf [] ++ rest) := by
        rw [List.flatMap_cons]
        unfold crlf
        obtain ⟨b, l, rfl⟩ := List.exists_cons_of_ne_nil hne'
        rintro h
        have h := (List.cons_prefix_cons.1 h).2
        cases l with
        | nil => exact absurd (List.cons_prefix_cons.1 h).1 (by decide)
        | cons b' l => exact hline' (by rw [(List.cons_prefix_cons.1 h).1]; simp)
      rw [hsplit, read_until_skip hline hstart, ih hlater (by simp)]
      simp [crlf]
      omega

end Lines

/-! ## Fields -/

/-- Where all fields of a name have one value, one of them is found. -/
theorem Hashing.find_only (H : Hashing) {header : CaseInsensitiveMultimap} {name value : List UInt8}
    (hin : ∃ field ∈ header, case_insensitive_equal field.1 name = true)
    (honly : ∀ field ∈ header, case_insensitive_equal field.1 name = true → field.2 = value) :
    ∃ field, H.find header name = some field ∧ field.2 = value := by
  have hmem : ∀ field, field ∈ H.order header ↔ field ∈ header := by
    intro field
    rw [← Multiset.mem_coe, H.fields]
  obtain ⟨field, hfield, hname⟩ := hin
  have hsome : (H.find header name).isSome := by
    unfold Hashing.find
    rw [List.find?_isSome]
    exact ⟨field, (hmem field).2 hfield, hname⟩
  obtain ⟨found, hfound⟩ := Option.isSome_iff_exists.1 hsome
  have hequal := List.find?_some hfound
  exact ⟨found, hfound, honly found ((hmem found).1 (List.mem_of_find?_eq_some hfound)) hequal⟩

theorem to_string_digit {n : ℕ} {b : UInt8} (h : b ∈ to_string n) : 48 ≤ b.toNat ∧ b.toNat ≤ 57 := by
  obtain ⟨c, hc, rfl⟩ := List.mem_map.1 h
  have hdigit := Nat.isDigit_of_mem_toDigits (by decide) (by decide) hc
  unfold Char.isDigit at hdigit
  simp only [Bool.and_eq_true, decide_eq_true_eq] at hdigit
  have h1 : 48 ≤ c.val.toNat := UInt32.le_iff_toNat_le.1 hdigit.1
  have h2 : c.val.toNat ≤ 57 := UInt32.le_iff_toNat_le.1 hdigit.2
  have hbyte : c.toUInt8.toNat = c.val.toNat % 256 := rfl
  omega

/-- A message up to its empty line. -/
theorem read_until_message {first : List UInt8} {fields : List Field} (hfirst : first ≠ [] ∧ lf ∉ first)
    (hfields : ∀ field ∈ fields, field.WellFormed) (rest : List UInt8) :
    read_until (message first fields ++ rest) = some (message first fields).length := by
  have hlines : ∀ line ∈ first :: fields.map fieldLine, line ≠ [] ∧ lf ∉ line := by
    intro line hline
    rcases List.mem_cons.1 hline with rfl | hline
    · exact hfirst
    · obtain ⟨field, hfield, rfl⟩ := List.mem_map.1 hline
      have hwell := hfields field hfield
      unfold fieldLine
      simp only [List.mem_append, not_or]
      exact ⟨by simp, ⟨hwell.name_line, by decide⟩, hwell.value_line⟩
  have hsplit : ∀ rest, message first fields ++ rest =
      (first :: fields.map fieldLine).flatMap crlf ++ (crlf [] ++ rest) := by
    intro rest
    simp [message, List.flatMap_map]
  have hlength := congrArg List.length (hsplit [])
  rw [List.append_nil, List.append_nil, List.length_append] at hlength
  rw [hsplit, read_until_lines hlines (by simp), hlength]
  rfl

/-! ## The request -/

/-- The fields of a request. -/
def SocketClient.fields (H : Hashing) (K : SocketClient) (nonce_base64 : List UInt8) : List Field :=
  [(text "Host", K.host ++ if K.port ≠ K.default_port then colon :: to_string K.port else []),
   (text "Upgrade", text "websocket"), (text "Connection", text "Upgrade"), (text "Sec-WebSocket-Key", nonce_base64),
   (text "Sec-WebSocket-Version", text "13")] ++ H.order K.header

/-- A client that writes one request: its address and its fields are in lines, and it leaves the key to `upgrade`. -/
structure SocketClient.WellFormed (K : SocketClient) : Prop where
  host : lf ∉ K.host
  target : space ∉ K.corrected_path ∧ lf ∉ K.corrected_path
  header : ∀ field ∈ K.header, field.WellFormed ∧
    case_insensitive_equal field.1 (text "Sec-WebSocket-Key") = false

theorem SocketClient.upgrade_eq (H : Hashing) (K : SocketClient) (nonce_base64 : List UInt8) :
    K.upgrade H nonce_base64 =
      message (requestLine (text "GET") K.corrected_path (text "1.1")) (K.fields H nonce_base64) := by
  have hcolon : text ": " = [colon, space] := by decide
  have hend : text "\r\n" = [cr, lf] := by decide
  have hget : text "GET " = text "GET" ++ [space] := by decide
  have hversion : text " HTTP/1.1\r\n" = space :: (text "HTTP" ++ slash :: (text "1.1" ++ [cr, lf])) := by decide
  have hhost : text "Host: " = text "Host" ++ [colon, space] := by decide
  have hupgrade : text "Upgrade: websocket\r\n" = text "Upgrade" ++ [colon, space] ++ text "websocket" ++ [cr, lf] := by
    decide
  have hconnection : text "Connection: Upgrade\r\n" =
      text "Connection" ++ [colon, space] ++ text "Upgrade" ++ [cr, lf] := by decide
  have hkey : text "Sec-WebSocket-Key: " = text "Sec-WebSocket-Key" ++ [colon, space] := by decide
  have hnumber : text "Sec-WebSocket-Version: 13\r\n" =
      text "Sec-WebSocket-Version" ++ [colon, space] ++ text "13" ++ [cr, lf] := by decide
  simp only [upgrade, message, requestLine, fields, crlf, fieldLine, hcolon, hend, hget, hversion, hhost, hupgrade,
    hconnection, hkey, hnumber, List.append_assoc, List.cons_append, List.nil_append, List.flatMap_cons]

theorem wellFormed_of {name value : List UInt8} (hname : lf ∉ name ∧ colon ∉ name) (hvalue : lf ∉ value) :
    Field.WellFormed (name, value) := ⟨hname.1, hname.2, hvalue⟩

theorem SocketClient.WellFormed.fields {K : SocketClient} (h : K.WellFormed) (H : Hashing) {nonce_base64 : List UInt8}
    (hnonce : lf ∉ nonce_base64) : ∀ field ∈ K.fields H nonce_base64, field.WellFormed := by
  have hdigits : lf ∉ to_string K.port := fun hmem => absurd (to_string_digit hmem) (by decide)
  intro field hfield
  rcases List.mem_append.1 hfield with hfield | hfield
  · simp only [List.mem_cons, List.not_mem_nil, or_false] at hfield
    rcases hfield with rfl | rfl | rfl | rfl | rfl
    · refine wellFormed_of (by decide) ?_
      simp only [List.mem_append, not_or]
      refine ⟨h.host, ?_⟩
      split
      · simp only [List.mem_cons, not_or]
        exact ⟨by decide, hdigits⟩
      · exact List.not_mem_nil
    · exact wellFormed_of (by decide) (by decide)
    · exact wellFormed_of (by decide) (by decide)
    · exact wellFormed_of (by decide) hnonce
    · exact wellFormed_of (by decide) (by decide)
  · rw [← Multiset.mem_coe, H.fields] at hfield
    exact (h.header field hfield).1

/-- The server finds the key of the request. -/
theorem SocketClient.WellFormed.key {K : SocketClient} (h : K.WellFormed) (H H' : Hashing) {nonce_base64 : List UInt8}
    (hnonce : space ∉ nonce_base64) :
    ∃ field, H'.find (((K.fields H nonce_base64).map fun field => (field.1, trimmed field.2) : List Field) :
      CaseInsensitiveMultimap) (text "Sec-WebSocket-Key") = some field ∧ field.2 = nonce_base64 := by
  have hvalue : trimmed nonce_base64 = nonce_base64 := by
    unfold trimmed
    rw [List.dropWhile_eq_self_iff]
    intro hlength hspace
    exact hnonce (by rw [← of_decide_eq_true hspace]; exact List.getElem_mem hlength)
  have hname : case_insensitive_equal (text "Sec-WebSocket-Key") (text "Sec-WebSocket-Key") = true := by decide
  have hhost : case_insensitive_equal (text "Host") (text "Sec-WebSocket-Key") = false := by decide
  refine H'.find_only ⟨(text "Sec-WebSocket-Key", nonce_base64), ?_, hname⟩ ?_
  · rw [Multiset.mem_coe, List.mem_map]
    exact ⟨(text "Sec-WebSocket-Key", nonce_base64), by simp [SocketClient.fields], by rw [hvalue]⟩
  · intro field hfield hname
    rw [Multiset.mem_coe, List.mem_map] at hfield
    obtain ⟨field, hfield, rfl⟩ := hfield
    rcases List.mem_append.1 hfield with hfield | hfield
    · simp only [List.mem_cons, List.not_mem_nil, or_false] at hfield
      rcases hfield with rfl | rfl | rfl | rfl | rfl
      · exact absurd (hhost.symm.trans hname) (by decide)
      · exact absurd hname (by decide)
      · exact absurd hname (by decide)
      · exact hvalue
      · exact absurd hname (by decide)
    · rw [← Multiset.mem_coe, H.fields] at hfield
      exact absurd hname (by rw [(h.header field hfield).2]; decide)

/-! ## The answer -/

/-- A header whose fields are in lines, and in which the value of the digest is this one. -/
structure Accepts (value : List UInt8) (header : CaseInsensitiveMultimap) : Prop where
  lines : ∀ field ∈ header, field.WellFormed
  present : ∃ field ∈ header, case_insensitive_equal field.1 (text "Sec-WebSocket-Accept") = true
  only : ∀ field ∈ header, case_insensitive_equal field.1 (text "Sec-WebSocket-Accept") = true → field.2 = value

/-- A server whose fields are in lines, and that leaves the digest to `write_handshake`. -/
structure SocketServer.WellFormed (S : SocketServer) : Prop where
  header : ∀ field ∈ S.header, field.WellFormed ∧
    case_insensitive_equal field.1 (text "Sec-WebSocket-Accept") = false
  on_handshake : ∀ e ∈ S.endpoint, ∀ on_handshake, e.on_handshake = some on_handshake → ∀ request header value,
    Accepts value header → (on_handshake request header).1 = 101 → Accepts value (on_handshake request header).2

theorem SocketServer.WellFormed.accepts {S : SocketServer} (h : S.WellFormed) {C : Crypto} (hC : C.Sound) {e : Endpoint}
    (he : e ∈ S.endpoint) (request : RequestMessage) (key : List UInt8) (hstatus : (S.answer C e request key).1 = 101) :
    Accepts (accept C key) (S.answer C e request key).2 := by
  have hbase : Accepts (accept C key) ((text "Sec-WebSocket-Accept", accept C key) ::ₘ
      (text "Connection", text "Upgrade") ::ₘ (text "Upgrade", text "websocket") ::ₘ S.header) := by
    have hname : case_insensitive_equal (text "Sec-WebSocket-Accept") (text "Sec-WebSocket-Accept") = true := by decide
    refine ⟨fun field hfield => ?_, ⟨_, Multiset.mem_cons_self _ _, hname⟩, fun field hfield hname => ?_⟩
    · simp only [Multiset.mem_cons] at hfield
      rcases hfield with rfl | rfl | rfl | hfield
      · exact wellFormed_of (by decide) (hC.word _).1
      · exact wellFormed_of (by decide) (by decide)
      · exact wellFormed_of (by decide) (by decide)
      · exact (h.header field hfield).1
    · simp only [Multiset.mem_cons] at hfield
      rcases hfield with rfl | rfl | rfl | hfield
      · rfl
      · exact absurd hname (by decide)
      · exact absurd hname (by decide)
      · exact absurd hname (by rw [(h.header field hfield).2]; decide)
  unfold answer at hstatus ⊢
  cases hon : e.on_handshake with
  | none => exact hbase
  | some on_handshake =>
    simp only [hon] at hstatus ⊢
    exact h.on_handshake e he on_handshake hon request _ _ hbase hstatus

theorem serverwss_wellFormed : serverwss.WellFormed where
  header field hfield := absurd hfield (Multiset.notMem_zero field)
  on_handshake e he on_handshake hon request header value haccepts _ := by
    rw [List.mem_singleton.1 he] at hon
    rw [← Option.some.inj hon]
    exact haccepts

/-- The text of a code is one line, and only one code has a text that begins with 101. -/
theorem status_code_text (code : ℕ) : lf ∉ status_code code ∧
    (code ≠ 101 → substr (status_code code) 0 4 ≠ text "101 ") := by
  have htable : ∀ entry ∈ status_code_strings, lf ∉ entry.2 ∧
      (entry.1 ≠ 101 → substr entry.2 0 4 ≠ text "101 ") := by decide +kernel
  unfold status_code
  cases hfind : status_code_strings.find? fun entry => entry.1 = code with
  | none => exact ⟨List.not_mem_nil, fun _ => by decide⟩
  | some entry =>
    have hcode : entry.1 = code := by
      have hfound := List.find?_some hfind
      exact of_decide_eq_true hfound
    obtain ⟨hline, hstart⟩ := htable entry (List.mem_of_find?_eq_some hfind)
    exact ⟨hline, fun hne => hstart (hcode ▸ hne)⟩

/-- What the server answers, as a message. -/
def SocketServer.response (H : Hashing) (C : Crypto) (S : SocketServer) (e : Endpoint) (request : RequestMessage)
    (key : List UInt8) : List UInt8 :=
  let (status, header) := S.answer C e request key
  if status = 101 then message (statusLine (text "1.1") (text "101 Web Socket Protocol Handshake")) (H.order header)
  else message (statusLine (text "1.1") (status_code status)) []

theorem SocketServer.write_handshake_eq (H : Hashing) (C : Crypto) {S : SocketServer} {request : RequestMessage}
    {e : Endpoint} (hendpoint : S.endpoint.find? (fun e => e.regex_match request.path) = some e) {field : Field}
    (hkey : H.find request.header (text "Sec-WebSocket-Key") = some field) :
    S.write_handshake H C request = some (S.response H C e request field.2, (S.answer C e request field.2).1) := by
  have hcolon : text ": " = [colon, space] := by decide
  have hend : text "\r\n" = [cr, lf] := by decide
  have hstop : text "\r\n\r\n" = [cr, lf, cr, lf] := by decide
  have hversion : text "HTTP/1.1 " = text "HTTP" ++ slash :: (text "1.1" ++ [space]) := by decide
  have hfirst : text "HTTP/1.1 101 Web Socket Protocol Handshake\r\n" =
      crlf (statusLine (text "1.1") (text "101 Web Socket Protocol Handshake")) := by decide
  unfold write_handshake response
  rw [hendpoint, Option.map_some, hkey]
  simp only
  by_cases hstatus : (S.answer C e request field.2).1 = 101
  · simp only [if_pos hstatus, hfirst, hcolon, hend]
    simp [message, crlf, fieldLine]
  · simp only [if_neg hstatus, hversion, hstop]
    simp [message, crlf, statusLine]

/-! ## Both sides -/

theorem requestLine_ne {method target version : List UInt8} : requestLine method target version ≠ [] := by
  simp [requestLine]

theorem statusLine_ne {version status : List UInt8} : statusLine version status ≠ [] := by
  simp [statusLine]

/-- What the server reads of what the client writes. -/
def SocketClient.request (H : Hashing) (K : SocketClient) (nonce_base64 : List UInt8) : RequestMessage :=
  { method := text "GET", path := targetPath K.corrected_path, query_string := targetQuery K.corrected_path,
    http_version := text "1.1",
    header := ((K.fields H nonce_base64).map fun field => (field.1, trimmed field.2) : List Field) }

theorem SocketClient.WellFormed.request {K : SocketClient} (hK : K.WellFormed) (H : Hashing)
    {nonce_base64 : List UInt8} (hnonce : lf ∉ nonce_base64) (rest : List UInt8) :
    RequestMessage.parse (K.upgrade H nonce_base64 ++ rest) = some (K.request H nonce_base64, rest) := by
  rw [K.upgrade_eq]
  exact parse_request (by decide) hK.target (by decide) (hK.fields H hnonce) rest

/-- The server answers what it is asked, and keeps what comes after the request. -/
theorem SocketClient.WellFormed.answered {K : SocketClient} (hK : K.WellFormed) (H H' : Hashing) {C : Crypto}
    {S : SocketServer} {e : Endpoint}
    (hendpoint : S.endpoint.find? (fun e => e.regex_match (targetPath K.corrected_path)) = some e)
    {key : List UInt8} (hkey : lf ∉ key ∧ space ∉ key) (rest : List UInt8) :
    Server.handshake H' C S (K.upgrade H key ++ rest) =
      some (S.response H' C e (K.request H key) key,
        if (S.answer C e (K.request H key) key).1 = 101 then some (Server.Connection.opened rest) else none) := by
  obtain ⟨field, hfield, hvalue⟩ := hK.key H H' hkey.2
  have hend : read_until (K.upgrade H key ++ rest) = some (K.upgrade H key).length := by
    have hline : lf ∉ requestLine (text "GET") K.corrected_path (text "1.1") := by
      simp only [requestLine, List.mem_append, List.mem_cons, not_or]
      exact ⟨by decide, by decide, hK.target.2, by decide, by decide, by decide, by decide⟩
    rw [K.upgrade_eq]
    exact read_until_message ⟨requestLine_ne, hline⟩ (hK.fields H hkey.1) rest
  have hwrite : S.write_handshake H' C (K.request H key) =
      some (S.response H' C e (K.request H key) key, (S.answer C e (K.request H key) key).1) := by
    rw [S.write_handshake_eq H' C hendpoint hfield, hvalue]
  unfold Server.handshake
  rw [hend, Option.bind_some, hK.request H hkey.1, Option.bind_some]
  simp only [hwrite, Option.map_some]

/-- The client that gets the answer: the key decides. -/
theorem SocketServer.WellFormed.answered {S : SocketServer} (hS : S.WellFormed) {C : Crypto} (hC : C.Sound)
    (H H' : Hashing) {e : Endpoint} (he : e ∈ S.endpoint) (request : RequestMessage) (key nonce_base64 : List UInt8)
    (rest : List UInt8) :
    Client.handshake H C nonce_base64 (S.response H' C e request key ++ rest) =
      some (if (S.answer C e request key).1 = 101 then
          if C.sha1 (key ++ ws_magic_string) = C.sha1 (nonce_base64 ++ ws_magic_string) then
            .opened (Client.Connection.opened rest)
          else .protocol_error
        else .permission_denied) := by
  have hversion : space ∉ text "1.1" ∧ lf ∉ text "1.1" := by decide
  -- the client reads of a message what it is made of
  have hread : ∀ status fields, lf ∉ status → (∀ field ∈ fields, Field.WellFormed field) →
      read_until (message (statusLine (text "1.1") status) fields ++ rest) =
          some (message (statusLine (text "1.1") status) fields).length ∧
        ResponseMessage.parse (message (statusLine (text "1.1") status) fields ++ rest) =
          some ({ http_version := text "1.1", status_code := status,
                  header := (fields.map fun field => (field.1, trimmed field.2) : List Field) }, rest) := by
    intro status fields hstatus hfields
    have hline : lf ∉ statusLine (text "1.1") status := by
      simp only [statusLine, List.mem_append, List.mem_cons, not_or]
      exact ⟨by decide, by decide, hversion.2, by decide, hstatus⟩
    exact ⟨read_until_message ⟨statusLine_ne, hline⟩ hfields rest, parse_response hversion hstatus hfields rest⟩
  unfold Client.handshake response
  by_cases hstatus : (S.answer C e request key).1 = 101
  · have haccepts := hS.accepts hC he request key hstatus
    have hfields : ∀ field ∈ H'.order (S.answer C e request key).2, field.WellFormed := by
      intro field hfield
      rw [← Multiset.mem_coe, H'.fields] at hfield
      exact haccepts.lines field hfield
    have htrim : trimmed (accept C key) = accept C key := by
      unfold trimmed
      rw [List.dropWhile_eq_self_iff]
      intro hlength hspace
      exact (hC.word (C.sha1 (key ++ ws_magic_string))).2
        (by rw [← of_decide_eq_true hspace]; exact List.getElem_mem hlength)
    obtain ⟨field, hfield, hvalue⟩ : ∃ field,
        H.find (((H'.order (S.answer C e request key).2).map fun field => (field.1, trimmed field.2) : List Field) :
          CaseInsensitiveMultimap) (text "Sec-WebSocket-Accept") = some field ∧ field.2 = accept C key := by
      refine H.find_only ?_ ?_
      · obtain ⟨field, hfield, hname⟩ := haccepts.present
        rw [← H'.fields (S.answer C e request key).2, Multiset.mem_coe] at hfield
        exact ⟨(field.1, trimmed field.2), Multiset.mem_coe.2 (List.mem_map.2 ⟨field, hfield, rfl⟩), hname⟩
      · intro field hfield hname
        obtain ⟨written, hwritten, rfl⟩ := List.mem_map.1 (Multiset.mem_coe.1 hfield)
        rw [← Multiset.mem_coe, H'.fields] at hwritten
        simp only [haccepts.only written hwritten hname, htrim]
    obtain ⟨hend, hparse⟩ := hread (text "101 Web Socket Protocol Handshake") _ (by decide) hfields
    have hdecode : C.base64_decode (accept C key) = C.sha1 (key ++ ws_magic_string) := hC.decodes _
    have hcode : substr (text "101 Web Socket Protocol Handshake") 0 4 = text "101 " := by decide
    simp only [if_pos hstatus, hend, Option.map_some, hparse, hcode, ne_eq, not_true_eq_false, if_false, hfield,
      hvalue, hdecode, List.length_append, Nat.add_sub_cancel_left]
    rfl
  · obtain ⟨hline, hcode⟩ := status_code_text (S.answer C e request key).1
    have hnone : ∀ field ∈ ([] : List Field), field.WellFormed := fun field hfield => absurd hfield List.not_mem_nil
    obtain ⟨hend, hparse⟩ := hread _ _ hline hnone
    simp only [if_neg hstatus, hend, Option.map_some, hparse, hcode hstatus, ne_eq, not_false_eq_true, if_true]

/-- What a client asks for, and what comes of it: the server reads of the request what the client wrote, and opens the
connection if it switches protocols; a client with the digest of that key opens it too, and any other client does not.
Both go on with the bytes behind the handshake. -/
theorem handshake_agrees (H H' : Hashing) {C : Crypto} (hC : C.Sound) {K : SocketClient} (hK : K.WellFormed)
    {S : SocketServer} (hS : S.WellFormed) {e : Endpoint}
    (hendpoint : S.endpoint.find? (fun e => e.regex_match (targetPath K.corrected_path)) = some e)
    (nonce nonce' up down : List UInt8) :
    ∃ request response status,
      RequestMessage.parse (K.upgrade H (C.base64_encode nonce) ++ up) = some (request, up) ∧
      request = K.request H (C.base64_encode nonce) ∧
      status = (S.answer C e request (C.base64_encode nonce)).1 ∧
      Server.handshake H' C S (K.upgrade H (C.base64_encode nonce) ++ up) =
        some (response, if status = 101 then some (Server.Connection.opened up) else none) ∧
      Client.handshake H C (C.base64_encode nonce') (response ++ down) =
        some (if status = 101 then
            if C.sha1 (C.base64_encode nonce ++ ws_magic_string) =
              C.sha1 (C.base64_encode nonce' ++ ws_magic_string) then
              .opened (Client.Connection.opened down)
            else .protocol_error
          else .permission_denied) :=
  ⟨_, _, _, hK.request H (hC.word nonce).1 up, rfl, rfl, hK.answered H H' hendpoint (hC.word nonce) up,
    hS.answered hC H H' (List.mem_of_find?_eq_some hendpoint) _ _ _ down⟩

section Sample

/-- The digest of the key in the standard, and its code. -/
private def sampleDigest : List UInt8 :=
  [179, 122, 79, 44, 192, 98, 79, 22, 144, 246, 70, 6, 207, 56, 89, 69, 178, 190, 196, 234]

private def sampleAccept : List UInt8 := text "s3pPLMBiTxaQ9kYGzzhZRbK+xOo="

private def sampleCrypto : Crypto where
  sha1 _ := sampleDigest
  base64_encode input := if input = sampleDigest then sampleAccept else text "dGhlIHNhbXBsZSBub25jZQ=="
  base64_decode output := if output = sampleAccept then sampleDigest else text "the sample nonce"

private theorem sampleCrypto_sound : sampleCrypto.Sound where
  decodes _ := rfl
  word input := by
    show lf ∉ (if input = sampleDigest then sampleAccept else _) ∧ space ∉ (if input = sampleDigest then _ else _)
    by_cases h : input = sampleDigest
    · simp only [if_pos h]
      decide
    · simp only [if_neg h]
      decide

private def sampleClient : SocketClient where
  host := text "localhost"
  port := 8080
  default_port := 80
  path := text "/audio?room=1"
  proxy_server := []
  header := {(text "Origin", text "http://localhost")}

private theorem sampleClient_wellFormed : sampleClient.WellFormed where
  host := by decide
  target := by decide
  header field hfield := by
    rw [Multiset.mem_singleton.1 hfield]
    exact ⟨wellFormed_of (by decide) (by decide), by decide⟩

theorem handshake_agrees_sample : ∃ H : Hashing, ∃ response,
    Server.handshake H sampleCrypto serverwss (sampleClient.upgrade H (text "dGhlIHNhbXBsZSBub25jZQ==") ++ [1]) =
      some (response, some (Server.Connection.opened [1])) ∧
    Client.handshake H sampleCrypto (text "dGhlIHNhbXBsZSBub25jZQ==") (response ++ [2, 3]) =
      some (.opened (Client.Connection.opened [2, 3])) := by
  let H : Hashing := ⟨Multiset.toList, Multiset.coe_toList⟩
  have hendpoint : serverwss.endpoint.find? (fun e => e.regex_match (targetPath sampleClient.corrected_path)) =
      some audioEndpoint := List.find?_cons_of_pos (by decide)
  have hkey : sampleCrypto.base64_encode (text "the sample nonce") = text "dGhlIHNhbXBsZSBub25jZQ==" := by decide
  obtain ⟨request, response, status, -, -, hstatus, hserver, hclient⟩ :=
    handshake_agrees H H sampleCrypto_sound sampleClient_wellFormed serverwss_wellFormed hendpoint
      (text "the sample nonce") (text "the sample nonce") [1] [2, 3]
  have hswitch : status = 101 := hstatus
  rw [if_pos hswitch, if_pos rfl, hkey] at hclient
  rw [if_pos hswitch, hkey] at hserver
  exact ⟨H, response, hserver, hclient⟩

end Sample

end SimpleWeb

end Undertone
