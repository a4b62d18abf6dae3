import Undertone.WebSocket.Handshake
import Undertone.WebSocket.Query

/-!
# Addresses: `client_ws.hpp`

A client is made of an address `host:port/path`, of which port and path may be left out; colons in square brackets
belong to the host. The parts of the address are what the client is constructed with and say where it connects to
(`client_of_address`).
-/

namespace Undertone

namespace SimpleWeb

def opening : UInt8 := '['.toUInt8
def closing : UInt8 := ']'.toUInt8

/-- The variables of the loop of `parse_host_port`. -/
structure HostPort where
  host : List UInt8
  port : List UInt8
  parse_port : Bool
  square_count : ℤ

def HostPort.step (s : HostPort) (chr : UInt8) : HostPort :=
  if chr = opening then { s with square_count := s.square_count + 1 }
  else if chr = closing then { s with square_count := s.square_count - 1 }
  else if s.square_count = 0 ∧ chr = colon then { s with parse_port := true }
  else if s.parse_port = false then { s with host := s.host ++ [chr] }
  else { s with port := s.port ++ [chr] }

def isdigit (chr : UInt8) : Bool := 48 ≤ chr ∧ chr ≤ 57

/-- `std::stoul`: blanks and a sign may come first, and what follows the digits is not read; `none` where it throws. -/
def stoul (str : List UInt8) : Option ℕ :=
  let str := str.dropWhile isspace
  let number := if str.head? = some minus ∨ str.head? = some plus then str.tail else str
  let digits := number.takeWhile isdigit
  let value := digits.foldl (fun n chr => 10 * n + (chr.toNat - 48)) 0
  if digits = [] ∨ 2 ^ 64 ≤ value then none
  else if str.head? = some minus then some ((2 ^ 64 - value) % 2 ^ 64) else some value

def parse_host_port (host_port : List UInt8) (default_port : ℕ) : List UInt8 × ℕ :=
  let s := host_port.foldl HostPort.step { host := [], port := [], parse_port := false, square_count := 0 }
  if s.port = [] then (s.host, default_port)
  else
    match stoul s.port with
    | some port => (s.host, port % 2 ^ 16)
    | none => (s.host, default_port)

/-- `SocketClientBase(host_port_path, default_port)` -/
def SocketClient.new (host_port_path : List UInt8) (default_port : ℕ) : SocketClient :=
  let host_port_end := find host_port_path slash 0
  let (host, port) := parse_host_port (host_port_end.elim host_port_path host_port_path.take) default_port
  { host := host, port := port, default_port := default_port, path := host_port_end.elim [slash] host_port_path.drop,
    proxy_server := [], header := 0 }

/-- Where `connect` connects to. -/
def SocketClient.destination (K : SocketClient) : List UInt8 × ℕ :=
  if K.proxy_server = [] then (K.host, K.port) else parse_host_port K.proxy_server 8080

/-! ## Numbers -/

theorem to_string_isdigit (n : ℕ) : ∀ chr ∈ to_string n, isdigit chr = true := by
  intro chr hchr
  obtain ⟨hlow, hhigh⟩ := to_string_digit hchr
  exact decide_eq_true ⟨UInt8.le_iff_toNat_le.2 hlow, UInt8.le_iff_toNat_le.2 hhigh⟩

theorem to_string_ne (n : ℕ) : to_string n ≠ [] := by
  simp [to_string]

theorem to_string_value (n : ℕ) : (to_string n).foldl (fun n chr => 10 * n + (chr.toNat - 48)) 0 = n := by
  have hchars : ∀ (l : List Char) (m : ℕ), (∀ c ∈ l, c.isDigit = true) →
      (l.map Char.toUInt8).foldl (fun n chr => 10 * n + (chr.toNat - 48)) m = Nat.ofDigitChars 10 l m := by
    intro l
    induction l with
    | nil => exact fun _ _ => rfl
    | cons c l ih =>
      intro m hl
      have hdigit := hl c List.mem_cons_self
      unfold Char.isDigit at hdigit
      simp only [Bool.and_eq_true, decide_eq_true_eq] at hdigit
      have hhigh : c.val.toNat ≤ 57 := UInt32.le_iff_toNat_le.1 hdigit.2
      have hbyte : c.toUInt8.toNat = c.toNat := by
        show c.val.toNat % 256 = c.val.toNat
        omega
      rw [List.map_cons, List.foldl_cons, ih _ fun c hc => hl c (List.mem_cons_of_mem _ hc), hbyte,
        Nat.ofDigitChars_cons]
      rfl
  unfold to_string
  rw [hchars _ _ fun c hc => Nat.isDigit_of_mem_toDigits (by decide) (by decide) hc]
  exact Nat.ofDigitChars_ten_toDigits

/-- A number that was written is read. -/
theorem stoul_to_string {n : ℕ} (h : n < 2 ^ 64) : stoul (to_string n) = some n := by
  obtain ⟨chr, rest, hcons⟩ := List.exists_cons_of_ne_nil (to_string_ne n)
  have hdigit : isdigit chr = true := to_string_isdigit n chr (by rw [hcons]; exact List.mem_cons_self)
  have hnot : isspace chr = false ∧ chr ≠ minus ∧ chr ≠ plus := by
    have hall : ∀ k < 256, isdigit (UInt8.ofNat k) = true →
        isspace (UInt8.ofNat k) = false ∧ UInt8.ofNat k ≠ minus ∧ UInt8.ofNat k ≠ plus := by decide +kernel
    have hchr := hall chr.toNat chr.toNat_lt
    rw [UInt8.ofNat_toNat] at hchr
    exact hchr hdigit
  have hdrop : (to_string n).dropWhile isspace = to_string n := by
    rw [hcons, List.dropWhile_cons, if_neg (by simp [hnot.1])]
  have htake : (to_string n).takeWhile isdigit = to_string n := List.takeWhile_eq_self_iff.2 (to_string_isdigit n)
  have hsign : (to_string n).head? ≠ some minus ∧ (to_string n).head? ≠ some plus := by
    rw [hcons]
    simpa using hnot.2
  unfold stoul
  simp only [hdrop, hsign.1, hsign.2, or_self, if_false, htake, to_string_value]
  rw [if_neg]
  simpa [to_string_ne] using h

/-! ## Addresses -/

/-- An address as it is written. -/
structure Address where
  host : List UInt8
  bracketed : Bool
  port : Option ℕ
  path : List UInt8

def Address.host_port (A : Address) : List UInt8 :=
  (if A.bracketed then opening :: (A.host ++ [closing]) else A.host) ++ A.port.elim [] (colon :: to_string ·)

def Address.written (A : Address) : List UInt8 := A.host_port ++ A.path

structure Address.WellFormed (A : Address) : Prop where
  host : slash ∉ A.host ∧ opening ∉ A.host ∧ closing ∉ A.host
  brackets : A.bracketed = false → colon ∉ A.host
  port : ∀ port, A.port = some port → port < 2 ^ 16
  path : A.path = [] ∨ A.path.head? = some slash

/-- The loop in the host, where a colon in brackets is a character like others. -/
theorem HostPort.host_loop {l : List UInt8} {s : HostPort} (hport : s.parse_port = false)
    (hl : ∀ chr ∈ l, chr ≠ opening ∧ chr ≠ closing ∧ (s.square_count = 0 → chr ≠ colon)) :
    l.foldl HostPort.step s = { s with host := s.host ++ l } := by
  induction l generalizing s with
  | nil => simp
  | cons chr l ih =>
    obtain ⟨hopening, hclosing, hcolon⟩ := hl chr List.mem_cons_self
    have hstep : s.step chr = { s with host := s.host ++ [chr] } := by
      unfold HostPort.step
      rw [if_neg hopening, if_neg hclosing, if_neg fun h => hcolon h.1 h.2, if_pos hport]
    rw [List.foldl_cons, hstep, ih (s := { s with host := s.host ++ [chr] }) hport
      fun c hc => hl c (List.mem_cons_of_mem _ hc)]
    simp

/-- The loop in the port. -/
theorem HostPort.port_loop {l : List UInt8} {s : HostPort} (hport : s.parse_port = true)
    (hl : ∀ chr ∈ l, isdigit chr = true) : l.foldl HostPort.step s = { s with port := s.port ++ l } := by
  induction l generalizing s with
  | nil => simp
  | cons chr l ih =>
    have hdigit := hl chr List.mem_cons_self
    have hstep : s.step chr = { s with port := s.port ++ [chr] } := by
      unfold HostPort.step
      rw [if_neg (by rintro rfl; exact absurd hdigit (by decide)),
        if_neg (by rintro rfl; exact absurd hdigit (by decide)),
        if_neg (by rintro ⟨-, rfl⟩; exact absurd hdigit (by decide)), if_neg (by simp [hport])]
    rw [List.foldl_cons, hstep, ih (s := { s with port := s.port ++ [chr] }) hport
      fun c hc => hl c (List.mem_cons_of_mem _ hc)]
    simp

theorem Address.WellFormed.host_loop {A : Address} (h : A.WellFormed) :
    (if A.bracketed then opening :: (A.host ++ [closing]) else A.host).foldl HostPort.step
        { host := [], port := [], parse_port := false, square_count := 0 } =
      { host := A.host, port := [], parse_port := false, square_count := 0 } := by
  obtain ⟨-, hopening, hclosing⟩ := h.host
  have hchars : ∀ chr ∈ A.host, chr ≠ opening ∧ chr ≠ closing :=
    fun chr hchr => ⟨fun heq => hopening (heq ▸ hchr), fun heq => hclosing (heq ▸ hchr)⟩
  cases hbracketed : A.bracketed with
  | false =>
    have hcolon := h.brackets hbracketed
    rw [if_neg Bool.false_ne_true, HostPort.host_loop rfl fun chr hchr =>
      ⟨(hchars chr hchr).1, (hchars chr hchr).2, fun _ heq => hcolon (heq ▸ hchr)⟩]
    rfl
  | true =>
    have hfirst : HostPort.step { host := [], port := [], parse_port := false, square_count := 0 } opening =
        { host := [], port := [], parse_port := false, square_count := 1 } := rfl
    rw [if_pos rfl, List.foldl_cons, hfirst, List.foldl_append, HostPort.host_loop rfl fun chr hchr =>
      ⟨(hchars chr hchr).1, (hchars chr hchr).2, fun hzero => absurd hzero (by simp)⟩]
    rfl

/-- The host and the port of an address. -/
theorem Address.WellFormed.parse {A : Address} (h : A.WellFormed) (default_port : ℕ) :
    parse_host_port A.host_port default_port = (A.host, A.port.getD default_port) := by
  unfold parse_host_port Address.host_port
  rw [List.foldl_append, h.host_loop]
  cases hport : A.port with
  | none => rfl
  | some port =>
    have hsmall := h.port port hport
    have hcolon : HostPort.step { host := A.host, port := [], parse_port := false, square_count := 0 } colon =
        { host := A.host, port := [], parse_port := true, square_count := 0 } := rfl
    rw [Option.elim_some, List.foldl_cons, hcolon, HostPort.port_loop rfl (to_string_isdigit port)]
    simp only [List.nil_append]
    rw [if_neg (to_string_ne port), stoul_to_string (by omega)]
    simp only [Nat.mod_eq_of_lt hsmall, Option.getD_some]

theorem Address.WellFormed.no_slash {A : Address} (h : A.WellFormed) : slash ∉ A.host_port := by
  have hport : slash ∉ A.port.elim [] (colon :: to_string ·) := by
    cases A.port with
    | none => exact List.not_mem_nil
    | some port =>
      have hdigits : slash ∉ to_string port :=
        fun hmem => absurd (to_string_isdigit port _ hmem) (by decide)
      rw [Option.elim_some, List.mem_cons, not_or]
      exact ⟨by decide, hdigits⟩
  unfold Address.host_port
  rw [List.mem_append, not_or]
  refine ⟨?_, hport⟩
  split
  · simp only [List.mem_cons, List.mem_append, List.not_mem_nil, or_false, not_or]
    exact ⟨by decide, h.host.1, by decide⟩
  · exact h.host.1

/-- A client has the parts of the address that it is made of, and connects to that address or to the one of its proxy.
-/
theorem client_of_address {A P : Address} (hA : A.WellFormed) (hP : P.WellFormed) (default_port : ℕ) :
    ∃ K, SocketClient.new A.written default_port = K ∧
      K.host = A.host ∧ K.port = A.port.getD default_port ∧ K.default_port = default_port ∧
      K.path = (if A.path = [] then [slash] else A.path) ∧ K.destination = (A.host, A.port.getD default_port) ∧
      (P.host_port ≠ [] → { K with proxy_server := P.host_port }.destination = (P.host, P.port.getD 8080)) := by
  have hproxy : P.host_port ≠ [] →
      { SocketClient.new A.written default_port with proxy_server := P.host_port }.destination =
        (P.host, P.port.getD 8080) := by
    intro hne
    unfold SocketClient.destination
    rw [if_neg hne, hP.parse]
  have hnone : find A.host_port slash 0 = none := by
    unfold find
    rw [List.drop_zero, List.idxOf?_eq_none_iff.2 hA.no_slash]
    rfl
  rcases hA.path with hpath | hpath
  · have hwritten : A.written = A.host_port := by rw [Address.written, hpath, List.append_nil]
    refine ⟨_, rfl, ?_, ?_, rfl, ?_, ?_, hproxy⟩ <;>
      simp [SocketClient.new, SocketClient.destination, hwritten, hnone, hA.parse, hpath]
  · obtain ⟨rest, hrest⟩ : ∃ rest, A.path = slash :: rest := List.head?_eq_some_iff.1 hpath
    have hfind : find A.written slash 0 = some A.host_port.length := by
      rw [Address.written, hrest]
      exact find_first hA.no_slash
    have htake : A.written.take A.host_port.length = A.host_port := by rw [Address.written, List.take_left]
    have hdrop : A.written.drop A.host_port.length = A.path := by rw [Address.written, List.drop_left]
    refine ⟨_, rfl, ?_, ?_, rfl, ?_, ?_, hproxy⟩ <;>
      simp [SocketClient.new, SocketClient.destination, hfind, htake, hdrop, hA.parse, hrest]

theorem client_of_address_brackets : ∃ K, SocketClient.new (text "[::1]:8080/audio") 80 = K ∧ K.host = text "::1" ∧
    K.port = 8080 ∧ K.path = text "/audio" ∧
    { K with proxy_server := text "proxy" }.destination = (text "proxy", 8080) := by
  have hA : Address.WellFormed ⟨text "::1", true, some 8080, text "/audio"⟩ :=
    ⟨by decide, by decide, fun port hport => by rw [← Option.some.inj hport]; decide, .inr rfl⟩
  have hP : Address.WellFormed ⟨text "proxy", false, none, []⟩ := ⟨by decide, by decide, by simp, .inl rfl⟩
  obtain ⟨K, hK, hhost, hport, -, hpath, -, hproxy⟩ := client_of_address hA hP 80
  exact ⟨K, hK, hhost, hport, hpath, hproxy (by decide)⟩

end SimpleWeb

end Undertone
