import Mathlib.Data.List.TakeWhile
import Mathlib.Data.Multiset.Filter
import Mathlib.Data.UInt

/-!
# Request and response: `utility.hpp`

The text of a handshake is a stream of bytes. A field of a header is a line with a colon, so a header ends with the
first line that has none (`HttpHeader.parse`). What is written line by line is read back (`parse_header`,
`parse_request`, `parse_response`), spaces in front of a value apart, and the reading leaves in the stream what comes
after the empty line.
-/

namespace Undertone

namespace SimpleWeb

/-! ## `std::string` and `std::istream` -/

/-- The bytes of an ASCII text. -/
def text (s : String) : List UInt8 := s.toList.map Char.toUInt8

def lf : UInt8 := '\n'.toUInt8
def cr : UInt8 := '\r'.toUInt8
def space : UInt8 := ' '.toUInt8
def colon : UInt8 := ':'.toUInt8
def slash : UInt8 := '/'.toUInt8
def question : UInt8 := '?'.toUInt8

/-- `s.find(c, pos)`; `none` is `npos`. -/
def find (s : List UInt8) (c : UInt8) (pos : ℕ) : Option ℕ := ((s.drop pos).idxOf? c).map (pos + ·)

/-- `s.substr(pos, count)` -/
def substr (s : List UInt8) (pos count : ℕ) : List UInt8 := (s.drop pos).take count

/-- `getline`: the line without its end, and the rest of the stream. -/
def getline : List UInt8 → Option (List UInt8 × List UInt8)
  | [] => none
  | stream => some (stream.takeWhile (· ≠ lf), (stream.dropWhile (· ≠ lf)).drop 1)

/-- The position after the first empty line, as `asio::async_read_until` of `"\r\n\r\n"` finds it. -/
def read_until : List UInt8 → Option ℕ
  | [] => none
  | b :: stream => if [cr, lf, cr, lf].isPrefixOf (b :: stream) then some 4 else (read_until stream).map (1 + ·)

/-! ## Header fields -/

/-- In the C locale. -/
def tolower (b : UInt8) : UInt8 := if 'A'.toUInt8 ≤ b ∧ b ≤ 'Z'.toUInt8 then b + 32 else b

def case_insensitive_equal (str1 str2 : List UInt8) : Bool := str1.map tolower = str2.map tolower

/-- A name and a value. -/
abbrev Field := List UInt8 × List UInt8

/-- The fields, in no order. -/
abbrev CaseInsensitiveMultimap := Multiset Field

/-- The order in which the fields are visited is a matter of the hash table. -/
structure Hashing where
  order : CaseInsensitiveMultimap → List Field
  fields : ∀ header, (order header : CaseInsensitiveMultimap) = header

/-- `header.find(name)`: some field of this name. -/
def Hashing.find (H : Hashing) (header : CaseInsensitiveMultimap) (name : List UInt8) : Option Field :=
  (H.order header).find? fun field => case_insensitive_equal field.1 name

/-- The spaces in front of a value; the last character of the line is not skipped. -/
def skipSpaces : List UInt8 → List UInt8
  | b :: b' :: line => if b = space then skipSpaces (b' :: line) else b :: b' :: line
  | line => line

/-- The field of a line whose colon is at `param_end`. -/
def headerField (line : List UInt8) (param_end : ℕ) : Option Field :=
  let value := skipSpaces (line.drop (param_end + 1))
  if value = [] then none
  else some (line.take param_end, if line.getLast? = some cr then value.dropLast else value)

theorem getline_shorter {stream line rest : List UInt8} (h : getline stream = some (line, rest)) :
    rest.length < stream.length := by
  cases stream with
  | nil => exact absurd h (by simp [getline])
  | cons b stream =>
    obtain ⟨-, rfl⟩ := Prod.mk.inj (Option.some.inj h)
    have hle : ((b :: stream).dropWhile (· ≠ lf)).length ≤ stream.length + 1 :=
      (List.dropWhile_sublist _).length_le
    rw [List.length_drop, List.length_cons]
    omega

/-- `HttpHeader::parse`: the header, and what it leaves in the stream. -/
def HttpHeader.parse (stream : List UInt8) : CaseInsensitiveMultimap × List UInt8 :=
  match _h : getline stream with
  | none => (0, stream)
  | some (line, rest) =>
    match SimpleWeb.find line colon 0 with
    | none => (0, rest)
    | some param_end =>
      let (header, rest) := HttpHeader.parse rest
      ((headerField line param_end).elim header (· ::ₘ header), rest)
termination_by stream.length
decreasing_by exact getline_shorter _h

/-! ## Messages -/

structure RequestMessage where
  method : List UInt8
  path : List UInt8
  query_string : List UInt8
  http_version : List UInt8
  header : CaseInsensitiveMultimap
deriving DecidableEq

/-- The loop over the request line from `i` on: where the query starts, and where path and query end. -/
def scanTarget : ℕ → List UInt8 → Option ℕ → Option ℕ × Option ℕ
  | _, [], query_start => (query_start, none)
  | i, b :: line, query_start =>
    if b = question ∧ line ≠ [] ∧ query_start = none then scanTarget (i + 1) line (some (i + 1))
    else if b = space then (query_start, some i)
    else scanTarget (i + 1) line query_start

/-- `RequestMessage::parse`, on a connection without a query string. -/
def RequestMessage.parse (stream : List UInt8) : Option (RequestMessage × List UInt8) := do
  let (line, rest) ← getline stream
  let method_end ← find line space 0
  let (query_start, path_and_query_string_end) := scanTarget (method_end + 1) (line.drop (method_end + 1)) none
  let path_and_query_string_end ← path_and_query_string_end
  let (path, query_string) :=
    match query_start with
    | some query_start => (substr line (method_end + 1) (query_start - method_end - 2),
        substr line query_start (path_and_query_string_end - query_start))
    | none => (substr line (method_end + 1) (path_and_query_string_end - method_end - 1), [])
  let protocol_end ← find line slash (path_and_query_string_end + 1)
  if substr line (path_and_query_string_end + 1) (protocol_end - path_and_query_string_end - 1) ≠ text "HTTP" then none
  else
    let (header, rest) := HttpHeader.parse rest
    some ({ method := line.take method_end, path := path, query_string := query_string,
            http_version := (line.drop (protocol_end + 1)).dropLast, header := header }, rest)

structure ResponseMessage where
  http_version : List UInt8
  status_code : List UInt8
  header : CaseInsensitiveMultimap
deriving DecidableEq

/-- `ResponseMessage::parse`; a space before the fifth character leaves the version the rest of the line. -/
def ResponseMessage.parse (stream : List UInt8) : Option (ResponseMessage × List UInt8) := do
  let (line, rest) ← getline stream
  let version_end ← find line space 0
  if 5 < line.length ∧ version_end + 1 < line.length then
    let code := line.drop (version_end + 1)
    let (header, rest) := HttpHeader.parse rest
    some ({ http_version := if version_end < 5 then line.drop 5 else substr line 5 (version_end - 5),
            status_code := if line.getLast? = some cr then code.dropLast else code, header := header }, rest)
  else none

/-! ## Lines -/

/-- A line as it is written. -/
def crlf (line : List UInt8) : List UInt8 := line ++ [cr, lf]

/-- A field as it is written. -/
def fieldLine (field : Field) : List UInt8 := field.1 ++ [colon, space] ++ field.2

/-- The value as it is read. -/
def trimmed (value : List UInt8) : List UInt8 := value.dropWhile (· = space)

/-- The first line, the fields and an empty line. -/
def message (first : List UInt8) (fields : List Field) : List UInt8 :=
  crlf first ++ (fields.flatMap (fun field => crlf (fieldLine field)) ++ crlf [])

/-- A field that is one line. -/
structure Field.WellFormed (field : Field) : Prop where
  name_line : lf ∉ field.1
  name : colon ∉ field.1
  value_line : lf ∉ field.2

section Lines

variable {line rest : List UInt8}

theorem getline_crlf (h : lf ∉ line) : getline (crlf line ++ rest) = some (line ++ [cr], rest) := by
  have hline : ∀ b ∈ line ++ [cr], (b ≠ lf : Bool) = true := by
    intro b hb
    rcases List.mem_append.1 hb with hb | hb
    · exact decide_eq_true fun heq => h (heq ▸ hb)
    · rw [List.mem_singleton.1 hb]
      decide
  have hsplit : crlf line ++ rest = (line ++ [cr]) ++ lf :: rest := by simp [crlf]
  have hne : crlf line ++ rest ≠ [] := by simp [crlf]
  have hget : ∀ stream : List UInt8, stream ≠ [] →
      getline stream = some (stream.takeWhile (· ≠ lf), (stream.dropWhile (· ≠ lf)).drop 1) := by
    intro stream hstream
    cases stream with
    | nil => exact absurd rfl hstream
    | cons b stream => rfl
  rw [hget _ hne, hsplit, List.takeWhile_append_of_pos hline, List.dropWhile_append_of_pos hline]
  simp

theorem append_message (first : List UInt8) (fields : List Field) : message first fields ++ rest =
    crlf first ++ (fields.flatMap (fun field => crlf (fieldLine field)) ++ (crlf [] ++ rest)) := by
  simp [message]

theorem find_at {c : UInt8} (h : c ∉ line) {before : List UInt8} {pos : ℕ} (hpos : before.length = pos) :
    find (before ++ (line ++ c :: rest)) c pos = some (pos + line.length) := by
  have hidx : (line ++ c :: rest).idxOf? c = some line.length := by
    induction line with
    | nil => simp [List.idxOf?_cons]
    | cons b line ih =>
      obtain ⟨hb, hline⟩ : c ≠ b ∧ c ∉ line := by simpa using h
      rw [List.cons_append, List.idxOf?_cons, if_neg (by simpa using Ne.symm hb), ih hline]
      rfl
  subst hpos
  unfold find
  rw [List.drop_left, hidx]
  rfl

theorem find_first {c : UInt8} (h : c ∉ line) : find (line ++ c :: rest) c 0 = some line.length := by
  have hfind : find ([] ++ (line ++ c :: rest)) c 0 = some (0 + line.length) := find_at h rfl
  rwa [List.nil_append, Nat.zero_add] at hfind

theorem substr_at {before middle after : List UInt8} {pos count : ℕ} (hpos : before.length = pos)
    (hcount : middle.length = count) : substr (before ++ (middle ++ after)) pos count = middle := by
  subst hpos hcount
  unfold substr
  rw [List.drop_left, List.take_left]

theorem drop_at {before after : List UInt8} {pos : ℕ} (hpos : before.length = pos) :
    (before ++ after).drop pos = after := by
  subst hpos
  exact List.drop_left

theorem skipSpaces_cr (value : List UInt8) : skipSpaces (value ++ [cr]) = trimmed value ++ [cr] := by
  induction value with
  | nil => rfl
  | cons b value ih =>
    obtain ⟨b', rest, hrest⟩ : ∃ b' rest, value ++ [cr] = b' :: rest := by
      cases value with
      | nil => exact ⟨cr, [], rfl⟩
      | cons b' value => exact ⟨b', value ++ [cr], rfl⟩
    rw [List.cons_append, hrest, skipSpaces]
    unfold trimmed
    by_cases hb : b = space
    · rw [if_pos hb, ← hrest, ih, List.dropWhile_cons, if_pos (decide_eq_true hb)]
      rfl
    · rw [if_neg hb, List.dropWhile_cons, if_neg (by simpa using hb), ← hrest]
      rfl

/-- A field that was written is read, without the spaces in front of the value. -/
theorem headerField_fieldLine (field : Field) :
    headerField (fieldLine field ++ [cr]) field.1.length = some (field.1, trimmed field.2) := by
  have hline : fieldLine field ++ [cr] = field.1 ++ colon :: ((space :: field.2) ++ [cr]) := by simp [fieldLine]
  have hdrop : (fieldLine field ++ [cr]).drop (field.1.length + 1) = (space :: field.2) ++ [cr] := by
    rw [hline, ← List.drop_drop, List.drop_left]
    rfl
  have htrim : trimmed (space :: field.2) = trimmed field.2 := rfl
  have hlast : (fieldLine field ++ [cr]).getLast? = some cr := by simp
  unfold headerField
  simp only [hdrop, skipSpaces_cr, htrim, hlast, if_true]
  rw [if_neg (by simp), List.dropLast_concat, hline, List.take_left]

theorem HttpHeader.parse_line {stream : List UInt8} {param_end : ℕ} (hget : getline stream = some (line, rest))
    (hfind : SimpleWeb.find line colon 0 = some param_end) :
    HttpHeader.parse stream =
      ((headerField line param_end).elim (HttpHeader.parse rest).1 (· ::ₘ (HttpHeader.parse rest).1),
        (HttpHeader.parse rest).2) := by
  rw [HttpHeader.parse]
  split
  · next h => exact absurd (hget.symm.trans h) (by simp)
  · next h =>
    obtain ⟨rfl, rfl⟩ := Prod.mk.inj (Option.some.inj (hget.symm.trans h))
    rw [hfind]

theorem HttpHeader.parse_end {stream : List UInt8} (hget : getline stream = some (line, rest))
    (hfind : SimpleWeb.find line colon 0 = none) : HttpHeader.parse stream = (0, rest) := by
  rw [HttpHeader.parse]
  split
  · next h => exact absurd (hget.symm.trans h) (by simp)
  · next h =>
    obtain ⟨rfl, rfl⟩ := Prod.mk.inj (Option.some.inj (hget.symm.trans h))
    rw [hfind]

/-- The header that was written is read, up to the empty line. -/
theorem parse_header {fields : List Field} (h : ∀ field ∈ fields, field.WellFormed) (rest : List UInt8) :
    HttpHeader.parse (fields.flatMap (fun field => crlf (fieldLine field)) ++ (crlf [] ++ rest)) =
      (((fields.map fun field => (field.1, trimmed field.2) : List Field) : CaseInsensitiveMultimap), rest) := by
  induction fields with
  | nil =>
    have hget : getline (crlf [] ++ rest) = some ([cr], rest) := getline_crlf (List.not_mem_nil)
    exact HttpHeader.parse_end hget (by decide)
  | cons field fields ih =>
    have hfield := h field List.mem_cons_self
    have hline : lf ∉ fieldLine field := by
      unfold fieldLine
      simp only [List.mem_append, not_or]
      exact ⟨⟨hfield.name_line, by decide⟩, hfield.value_line⟩
    have hcolon : SimpleWeb.find (fieldLine field ++ [cr]) colon 0 = some field.1.length := by
      have hfind : SimpleWeb.find (field.1 ++ colon :: (space :: field.2 ++ [cr])) colon 0 = some field.1.length :=
        find_first hfield.name
      simpa [fieldLine] using hfind
    rw [List.flatMap_cons, List.append_assoc, HttpHeader.parse_line (getline_crlf hline) hcolon,
      ih fun f hf => h f (List.mem_cons_of_mem _ hf), headerField_fieldLine]
    rfl

/-! ## The first line -/

/-- The path of a target. -/
def targetPath (target : List UInt8) : List UInt8 := target.takeWhile (· ≠ question)

/-- What comes after the first question mark. -/
def targetQuery (target : List UInt8) : List UInt8 := (target.dropWhile (· ≠ question)).drop 1

theorem scanTarget_some {target : List UInt8} (h : space ∉ target) (i q : ℕ) (tail : List UInt8) :
    scanTarget i (target ++ space :: tail) (some q) = (some q, some (i + target.length)) := by
  induction target generalizing i with
  | nil => rfl
  | cons b target ih =>
    obtain ⟨hb, htarget⟩ : space ≠ b ∧ space ∉ target := by simpa using h
    rw [List.cons_append, scanTarget, if_neg (by simp), if_neg hb.symm, ih htarget]
    simp only [List.length_cons]
    rw [Nat.add_assoc, Nat.add_comm 1]

theorem scanTarget_none {target : List UInt8} (h : space ∉ target) (hq : question ∉ target) (i : ℕ)
    (tail : List UInt8) : scanTarget i (target ++ space :: tail) none = (none, some (i + target.length)) := by
  induction target generalizing i with
  | nil =>
    rw [List.nil_append, scanTarget, if_neg fun hspace => absurd hspace.1 (by decide), if_pos rfl]
    rfl
  | cons b target ih =>
    obtain ⟨hb, htarget⟩ : space ≠ b ∧ space ∉ target := by simpa using h
    obtain ⟨hbq, hqtarget⟩ : question ≠ b ∧ question ∉ target := by simpa using hq
    rw [List.cons_append, scanTarget, if_neg fun hquestion => hbq hquestion.1.symm, if_neg hb.symm,
      ih htarget hqtarget]
    simp only [List.length_cons]
    rw [Nat.add_assoc, Nat.add_comm 1]

theorem scanTarget_question {path query : List UInt8} (hpath : space ∉ path) (hq : question ∉ path)
    (hquery : space ∉ query) (i : ℕ) (tail : List UInt8) :
    scanTarget i (path ++ question :: (query ++ space :: tail)) none =
      (some (i + path.length + 1), some (i + path.length + 1 + query.length)) := by
  induction path generalizing i with
  | nil =>
    rw [List.nil_append, scanTarget, if_pos ⟨rfl, by simp, rfl⟩, scanTarget_some hquery]
    rfl
  | cons b path ih =>
    obtain ⟨hb, hpath⟩ : space ≠ b ∧ space ∉ path := by simpa using hpath
    obtain ⟨hbq, hq⟩ : question ≠ b ∧ question ∉ path := by simpa using hq
    rw [List.cons_append, scanTarget, if_neg fun hquestion => hbq hquestion.1.symm, if_neg hb.symm, ih hpath hq]
    simp only [List.length_cons]
    rw [Nat.add_assoc i 1, Nat.add_comm 1]

/-- The parts of a request line. -/
theorem RequestMessage.parse_line {stream : List UInt8} {method_end stop protocol_end : ℕ} {query_start : Option ℕ}
    (hget : getline stream = some (line, rest)) (hmethod : find line space 0 = some method_end)
    (hscan : scanTarget (method_end + 1) (line.drop (method_end + 1)) none = (query_start, some stop))
    (hprotocol : find line slash (stop + 1) = some protocol_end)
    (hhttp : substr line (stop + 1) (protocol_end - stop - 1) = text "HTTP") :
    RequestMessage.parse stream =
      some ({ method := line.take method_end
              path := substr line (method_end + 1) (query_start.elim (stop - method_end - 1) (· - method_end - 2))
              query_string := query_start.elim [] fun query_start => substr line query_start (stop - query_start)
              http_version := (line.drop (protocol_end + 1)).dropLast
              header := (HttpHeader.parse rest).1 }, (HttpHeader.parse rest).2) := by
  unfold RequestMessage.parse
  simp only [hget, Option.bind_eq_bind, Option.bind_some, hmethod, hscan]
  cases query_start with
  | none =>
    simp only [hprotocol, Option.bind_some, hhttp, ne_eq, not_true_eq_false, if_false]
    rfl
  | some query_start =>
    simp only [hprotocol, Option.bind_some, hhttp, ne_eq, not_true_eq_false, if_false]
    rfl

/-- The request line that a client writes. -/
def requestLine (method target version : List UInt8) : List UInt8 :=
  method ++ space :: (target ++ space :: (text "HTTP" ++ slash :: version))

/-- The path and the query of a target behind `m + 1` characters of a line. -/
theorem target_parts {before target after : List UInt8} {m : ℕ} (h : space ∉ target) (hbefore : before.length = m + 1) :
    ∃ query_start, scanTarget (m + 1) ((before ++ (target ++ space :: after)).drop (m + 1)) none =
        (query_start, some (m + 1 + target.length)) ∧
      substr (before ++ (target ++ space :: after)) (m + 1)
        (query_start.elim (m + 1 + target.length - m - 1) (· - m - 2)) = targetPath target ∧
      (query_start.elim [] fun query_start => substr (before ++ (target ++ space :: after)) query_start
        (m + 1 + target.length - query_start)) = targetQuery target := by
  by_cases hq : question ∈ target
  · obtain ⟨path, query, htarget, hpath⟩ := List.eq_append_cons_of_mem hq
    obtain ⟨hspath, hsquery⟩ : space ∉ path ∧ space ∉ query := by
      rw [htarget] at h
      simp only [List.mem_append, List.mem_cons, not_or] at h
      exact ⟨h.1, h.2.2⟩
    have hlength : target.length = path.length + 1 + query.length := by
      rw [htarget]
      simp
      omega
    have hnot : ∀ b ∈ path, (b ≠ question : Bool) = true := fun b hb => decide_eq_true fun heq => hpath (heq ▸ hb)
    have htargetPath : targetPath target = path := by
      rw [targetPath, htarget, List.takeWhile_append_of_pos hnot]
      simp
    have htargetQuery : targetQuery target = query := by
      rw [targetQuery, htarget, List.dropWhile_append_of_pos hnot]
      simp
    have hline : target ++ space :: after = path ++ question :: (query ++ space :: after) := by
      rw [htarget]
      simp
    refine ⟨some (m + 1 + path.length + 1), ?_, ?_, ?_⟩
    · rw [drop_at hbefore, hline, scanTarget_question hspath hpath hsquery, hlength]
      simp only [Nat.add_assoc]
    · rw [hline, htargetPath]
      exact substr_at hbefore (show path.length = m + 1 + path.length + 1 - m - 2 by omega)
    · have hsplit : before ++ (target ++ space :: after) =
          (before ++ (path ++ [question])) ++ (query ++ space :: after) := by
        rw [hline]
        simp
      rw [htargetQuery, hsplit]
      refine substr_at ?_ (show query.length = m + 1 + target.length - (m + 1 + path.length + 1) by omega)
      simp
      omega
  · have hnot : ∀ b ∈ target, (b ≠ question : Bool) = true := fun b hb => decide_eq_true fun heq => hq (heq ▸ hb)
    have htargetPath : targetPath target = target := List.takeWhile_eq_self_iff.2 hnot
    have htargetQuery : targetQuery target = [] := by
      rw [targetQuery, List.dropWhile_eq_nil_iff.2 hnot]
      rfl
    refine ⟨none, ?_, ?_, htargetQuery.symm⟩
    · rw [drop_at hbefore, scanTarget_none h hq]
    · rw [htargetPath]
      exact substr_at hbefore (show target.length = m + 1 + target.length - m - 1 by omega)

/-- A request that was written is read: the target up to a question mark and after it, and the header. -/
theorem parse_request {method target version : List UInt8} {fields : List Field}
    (hmethod : space ∉ method ∧ lf ∉ method) (htarget : space ∉ target ∧ lf ∉ target) (hversion : lf ∉ version)
    (hfields : ∀ field ∈ fields, field.WellFormed) (rest : List UInt8) :
    RequestMessage.parse (message (requestLine method target version) fields ++ rest) =
      some ({ method := method, path := targetPath target, query_string := targetQuery target,
              http_version := version,
              header := (fields.map fun field => (field.1, trimmed field.2) : List Field) }, rest) := by
  have hhttp : slash ∉ text "HTTP" ∧ lf ∉ text "HTTP" ∧ (text "HTTP").length = 4 := by decide
  have hline : lf ∉ requestLine method target version := by
    simp only [requestLine, List.mem_append, List.mem_cons, not_or]
    exact ⟨hmethod.2, by decide, htarget.2, by decide, hhttp.2.1, by decide, hversion⟩
  have hget : getline (crlf (requestLine method target version) ++
      (fields.flatMap (fun field => crlf (fieldLine field)) ++ (crlf [] ++ rest))) = _ := getline_crlf hline
  rw [← append_message] at hget
  generalize hdef : requestLine method target version ++ [cr] = line at hget
  unfold requestLine at hdef
  -- the line behind the method, behind the target, behind the protocol
  have hbehind_method : line = (method ++ [space]) ++
      (target ++ space :: (text "HTTP" ++ slash :: (version ++ [cr]))) := by
    simp [← hdef]
  have hbehind_target : line = (method ++ space :: (target ++ [space])) ++
      (text "HTTP" ++ slash :: (version ++ [cr])) := by
    simp [← hdef]
  have hbehind_protocol : line = (method ++ space :: (target ++ space :: (text "HTTP" ++ [slash]))) ++
      (version ++ [cr]) := by
    simp [← hdef]
  have hlength_target : (method ++ space :: (target ++ [space])).length = method.length + 1 + target.length + 1 := by
    simp
    omega
  have hlength_protocol : (method ++ space :: (target ++ space :: (text "HTTP" ++ [slash]))).length =
      method.length + 1 + target.length + 1 + 4 + 1 := by
    simp [hhttp.2.2]
    omega
  have hmethod_end : find line space 0 = some method.length := by
    rw [hbehind_method, List.append_assoc]
    exact find_first hmethod.1
  have hprotocol : find line slash (method.length + 1 + target.length + 1) =
      some (method.length + 1 + target.length + 1 + 4) := by
    rw [hbehind_target, find_at hhttp.1 hlength_target, hhttp.2.2]
  have hname : substr line (method.length + 1 + target.length + 1)
      (method.length + 1 + target.length + 1 + 4 - (method.length + 1 + target.length) - 1) = text "HTTP" := by
    rw [hbehind_target]
    exact substr_at hlength_target (by omega)
  have htake : line.take method.length = method := by
    rw [hbehind_method, List.append_assoc, List.take_left]
  have hvers : (line.drop (method.length + 1 + target.length + 1 + 4 + 1)).dropLast = version := by
    rw [hbehind_protocol, drop_at hlength_protocol, List.dropLast_concat]
  have hlength_method : (method ++ [space]).length = method.length + 1 := by simp
  obtain ⟨query_start, hscan, hpath, hquery⟩ :=
    @target_parts (method ++ [space]) target (text "HTTP" ++ slash :: (version ++ [cr])) method.length htarget.1
      hlength_method
  rw [← hbehind_method] at hscan hpath hquery
  rw [RequestMessage.parse_line hget hmethod_end hscan hprotocol hname, parse_header hfields, htake, hvers, hpath,
    hquery]

/-- The status line that a server writes. -/
def statusLine (version status_code : List UInt8) : List UInt8 :=
  text "HTTP" ++ slash :: (version ++ space :: status_code)

/-- A response that was written is read. -/
theorem parse_response {version status_code : List UInt8} {fields : List Field}
    (hversion : space ∉ version ∧ lf ∉ version) (hstatus : lf ∉ status_code)
    (hfields : ∀ field ∈ fields, field.WellFormed) (rest : List UInt8) :
    ResponseMessage.parse (message (statusLine version status_code) fields ++ rest) =
      some ({ http_version := version, status_code := status_code,
              header := (fields.map fun field => (field.1, trimmed field.2) : List Field) }, rest) := by
  have hhttp : space ∉ text "HTTP" ∧ lf ∉ text "HTTP" ∧ (text "HTTP").length = 4 := by decide
  have hline : lf ∉ statusLine version status_code := by
    simp only [statusLine, List.mem_append, List.mem_cons, not_or]
    exact ⟨hhttp.2.1, by decide, hversion.2, by decide, hstatus⟩
  have hget : getline (crlf (statusLine version status_code) ++
      (fields.flatMap (fun field => crlf (fieldLine field)) ++ (crlf [] ++ rest))) = _ := getline_crlf hline
  rw [← append_message] at hget
  generalize hdef : statusLine version status_code ++ [cr] = line at hget
  unfold statusLine at hdef
  have hfront : line = (text "HTTP" ++ slash :: version) ++ space :: (status_code ++ [cr]) := by
    simp [← hdef]
  have hbehind_slash : line = (text "HTTP" ++ [slash]) ++ (version ++ space :: (status_code ++ [cr])) := by
    simp [← hdef]
  have hbehind_version : line = (text "HTTP" ++ slash :: (version ++ [space])) ++ (status_code ++ [cr]) := by
    simp [← hdef]
  have hlength : (text "HTTP" ++ slash :: version).length = 5 + version.length := by
    simp [hhttp.2.2]
    omega
  have hversion_end : find line space 0 = some (5 + version.length) := by
    rw [hfront, find_first, hlength]
    simp only [List.mem_append, List.mem_cons, not_or]
    exact ⟨hhttp.1, by decide, hversion.1⟩
  have hsize : line.length = 5 + version.length + 1 + status_code.length + 1 := by
    rw [hfront, List.length_append, hlength]
    simp
    omega
  have hcode : line.drop (5 + version.length + 1) = status_code ++ [cr] := by
    rw [hbehind_version]
    refine drop_at ?_
    simp [hhttp.2.2]
    omega
  have hvers : substr line 5 (5 + version.length - 5) = version := by
    rw [hbehind_slash]
    exact substr_at rfl (by omega)
  have hlast : line.getLast? = some cr := by rw [← hdef, List.getLast?_concat]
  unfold ResponseMessage.parse
  simp only [hget, Option.bind_eq_bind, Option.bind_some, hversion_end]
  rw [if_pos (by omega), parse_header hfields]
  simp only [hcode, hlast, if_true, hvers, List.dropLast_concat]
  rw [if_neg (by omega)]

end Lines

end SimpleWeb

end Undertone
