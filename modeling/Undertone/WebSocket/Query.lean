import Undertone.WebSocket.Http

/-!
# Query strings: `utility.hpp`

A query string is made of `name=value` pairs between ampersands, with the values percent-encoded. The parser keeps the
positions of the name and of the value in the whole string; what it finds are the fields of the pieces between the
ampersands (`QueryString.parse_eq`), so that it reads back what `create` writes (`query_string_returned`).
-/

namespace Undertone

namespace SimpleWeb

def ampersand : UInt8 := '&'.toUInt8
def equals : UInt8 := '='.toUInt8
def percent : UInt8 := '%'.toUInt8
def plus : UInt8 := '+'.toUInt8
def minus : UInt8 := '-'.toUInt8

/-! ## Percent encoding -/

/-- The characters that stand for themselves. -/
def unreserved (chr : UInt8) : Bool :=
  ('0'.toUInt8 ≤ chr ∧ chr ≤ '9'.toUInt8) ∨ ('A'.toUInt8 ≤ chr ∧ chr ≤ 'Z'.toUInt8) ∨
    ('a'.toUInt8 ≤ chr ∧ chr ≤ 'z'.toUInt8) ∨ chr = minus ∨ chr = '.'.toUInt8 ∨ chr = '_'.toUInt8 ∨ chr = '~'.toUInt8

def hex_chars : List UInt8 := text "0123456789ABCDEF"

def Percent.encode (value : List UInt8) : List UInt8 :=
  value.flatMap fun chr =>
    if unreserved chr then [chr]
    else [percent, hex_chars.getD (chr >>> 4).toNat 0, hex_chars.getD (chr &&& 15).toNat 0]

/-- The value of a hexadecimal digit. -/
def hexValue (chr : UInt8) : Option UInt8 :=
  if '0'.toUInt8 ≤ chr ∧ chr ≤ '9'.toUInt8 then some (chr - '0'.toUInt8)
  else if 'A'.toUInt8 ≤ chr ∧ chr ≤ 'F'.toUInt8 then some (chr - 'A'.toUInt8 + 10)
  else if 'a'.toUInt8 ≤ chr ∧ chr ≤ 'f'.toUInt8 then some (chr - 'a'.toUInt8 + 10)
  else none

/-- Blank, or a control character from tab to carriage return. -/
def isspace (chr : UInt8) : Bool := chr = space ∨ (9 ≤ chr ∧ chr ≤ 13)

/-- `strtol` of two characters in base 16, as a byte: blanks and a sign may come first, and the number ends with the
first character that is no digit. -/
def strtol (chr chr' : UInt8) : UInt8 :=
  match hexValue chr, hexValue chr' with
  | some high, some low => 16 * high + low
  | some high, none => high
  | none, some low => if isspace chr ∨ chr = plus then low else if chr = minus then -low else 0
  | none, none => 0

def Percent.decode : List UInt8 → List UInt8
  | chr :: high :: low :: value =>
    if chr = percent then strtol high low :: Percent.decode value
    else (if chr = plus then space else chr) :: Percent.decode (high :: low :: value)
  | chr :: value => (if chr = plus then space else chr) :: Percent.decode value
  | [] => []

/-! ## Query strings -/

/-- The loop adds an ampersand before every field but the first. -/
def QueryString.create (H : Hashing) (fields : CaseInsensitiveMultimap) : List UInt8 :=
  ((H.order fields).foldl (fun (result, first) field =>
    (result ++ (if first then [] else [ampersand]) ++ field.1 ++ [equals] ++ Percent.encode field.2, false))
    ([], true)).1

/-- The variables of the loop of `parse`; `none` is `npos`. -/
structure QueryScan where
  name_pos : ℕ
  name_end_pos : Option ℕ
  value_pos : Option ℕ
  result : CaseInsensitiveMultimap

/-- The field that ends at `c`. -/
def QueryScan.emplace (query_string : List UInt8) (c : ℕ) (s : QueryScan) : CaseInsensitiveMultimap :=
  let name := substr query_string s.name_pos (s.name_end_pos.getD c - s.name_pos)
  if name = [] then s.result
  else (name, Percent.decode (s.value_pos.elim [] fun value_pos => substr query_string value_pos (c - value_pos))) ::ₘ
    s.result

def QueryScan.step (query_string : List UInt8) (c : ℕ) (chr : UInt8) (s : QueryScan) : QueryScan :=
  if chr = ampersand then
    { name_pos := c + 1, name_end_pos := none, value_pos := none, result := s.emplace query_string c }
  else if chr = equals ∧ s.name_end_pos = none then { s with name_end_pos := some c, value_pos := some (c + 1) }
  else s

/-- The loop from position `c` on. -/
def QueryString.scan (query_string : List UInt8) : ℕ → List UInt8 → QueryScan → QueryScan
  | _, [], s => s
  | c, chr :: rest, s => QueryString.scan query_string (c + 1) rest (s.step query_string c chr)

/-- After the loop the last field ends with the string. -/
def QueryScan.finish (query_string : List UInt8) (s : QueryScan) : CaseInsensitiveMultimap :=
  if s.name_pos < query_string.length then
    let name := s.name_end_pos.elim (query_string.drop s.name_pos) fun name_end_pos =>
      substr query_string s.name_pos (name_end_pos - s.name_pos)
    if name = [] then s.result
    else
      let value := s.value_pos.elim [] fun value_pos =>
        if query_string.length ≤ value_pos then [] else query_string.drop value_pos
      (name, Percent.decode value) ::ₘ s.result
  else s.result

def QueryString.parse (query_string : List UInt8) : CaseInsensitiveMultimap :=
  if query_string = [] then 0
  else
    (QueryString.scan query_string 0 query_string
      { name_pos := 0, name_end_pos := none, value_pos := none, result := 0 }).finish query_string

/-! ## Values -/

theorem hexValue_hex_chars : ∀ n < 16, hexValue (hex_chars.getD n 0) = some (UInt8.ofNat n) := by decide

theorem hex_chars_ampersand : ∀ n < 16, hex_chars.getD n 0 ≠ ampersand := by decide

theorem toNat_shiftRight (chr : UInt8) : (chr >>> 4).toNat = chr.toNat / 16 := by
  rw [UInt8.toNat_shiftRight, Nat.shiftRight_eq_div_pow]
  rfl

theorem toNat_and (chr : UInt8) : (chr &&& 15).toNat = chr.toNat % 16 := by
  rw [UInt8.toNat_and]
  exact Nat.and_two_pow_sub_one_eq_mod chr.toNat 4

/-- The two digits of a byte. -/
theorem strtol_digits (chr : UInt8) :
    strtol (hex_chars.getD (chr >>> 4).toNat 0) (hex_chars.getD (chr &&& 15).toNat 0) = chr := by
  have hbyte := chr.toNat_lt
  rw [toNat_shiftRight, toNat_and]
  unfold strtol
  rw [hexValue_hex_chars _ (by omega), hexValue_hex_chars _ (by omega)]
  apply UInt8.toNat_inj.1
  simp only [UInt8.toNat_add, UInt8.toNat_mul, UInt8.toNat_ofNat, UInt8.toNat_ofNat']
  omega

theorem Percent.decode_cons {chr : UInt8} (hpercent : chr ≠ percent) (hplus : chr ≠ plus) (value : List UInt8) :
    Percent.decode (chr :: value) = chr :: Percent.decode value := by
  match value with
  | [] => simp [Percent.decode, hplus]
  | [_] => simp [Percent.decode, hplus]
  | _ :: _ :: _ => rw [Percent.decode, if_neg hpercent, if_neg hplus]

theorem unreserved_ne {chr : UInt8} (h : unreserved chr = true) :
    chr ≠ percent ∧ chr ≠ plus ∧ chr ≠ ampersand := by
  refine ⟨?_, ?_, ?_⟩
  · rintro rfl
    exact absurd h (by decide)
  · rintro rfl
    exact absurd h (by decide)
  · rintro rfl
    exact absurd h (by decide)

theorem Percent.encode_cons (chr : UInt8) (value : List UInt8) : Percent.encode (chr :: value) =
    (if unreserved chr then [chr]
      else [percent, hex_chars.getD (chr >>> 4).toNat 0, hex_chars.getD (chr &&& 15).toNat 0]) ++
    Percent.encode value := rfl

theorem Percent.decode_encode (value : List UInt8) : Percent.decode (Percent.encode value) = value := by
  induction value with
  | nil => rfl
  | cons chr value ih =>
    rw [Percent.encode_cons]
    by_cases h : unreserved chr = true
    · obtain ⟨hpercent, hplus, -⟩ := unreserved_ne h
      rw [if_pos h, List.singleton_append, Percent.decode_cons hpercent hplus, ih]
    · rw [if_neg h]
      simp only [List.cons_append, List.nil_append]
      rw [Percent.decode, if_pos rfl, strtol_digits, ih]

theorem Percent.encode_ampersand (value : List UInt8) : ampersand ∉ Percent.encode value := by
  induction value with
  | nil => exact List.not_mem_nil
  | cons chr value ih =>
    have hbyte := chr.toNat_lt
    rw [Percent.encode_cons, List.mem_append, not_or]
    refine ⟨?_, ih⟩
    by_cases h : unreserved chr = true
    · rw [if_pos h, List.mem_singleton]
      exact (unreserved_ne h).2.2.symm
    · have hhigh := hex_chars_ampersand (chr >>> 4).toNat (by rw [toNat_shiftRight]; omega)
      have hlow := hex_chars_ampersand (chr &&& 15).toNat (by rw [toNat_and]; omega)
      rw [if_neg h]
      simp only [List.mem_cons, List.not_mem_nil, or_false, not_or]
      exact ⟨by decide, hhigh.symm, hlow.symm⟩

/-! ## Pieces -/

/-- The field of a piece between two ampersands; without a name there is none. -/
def pairField (piece : List UInt8) : Option Field :=
  if piece.takeWhile (· ≠ equals) = [] then none
  else some (piece.takeWhile (· ≠ equals), Percent.decode ((piece.dropWhile (· ≠ equals)).drop 1))

theorem pairField_pair {name : List UInt8} (h : equals ∉ name) (value : List UInt8) :
    pairField (name ++ equals :: value) = if name = [] then none else some (name, Percent.decode value) := by
  have hname : ∀ chr ∈ name, (chr ≠ equals : Bool) = true := fun chr hchr => decide_eq_true fun heq => h (heq ▸ hchr)
  have htake : (name ++ equals :: value).takeWhile (· ≠ equals) = name := by
    rw [List.takeWhile_append_of_pos hname]
    simp
  have hdrop : ((name ++ equals :: value).dropWhile (· ≠ equals)).drop 1 = value := by
    rw [List.dropWhile_append_of_pos hname]
    simp
  unfold pairField
  rw [htake, hdrop]

theorem pairField_name {name : List UInt8} (h : equals ∉ name) :
    pairField name = if name = [] then none else some (name, []) := by
  have hname : ∀ chr ∈ name, (chr ≠ equals : Bool) = true := fun chr hchr => decide_eq_true fun heq => h (heq ▸ hchr)
  have htake : name.takeWhile (· ≠ equals) = name := List.takeWhile_eq_self_iff.2 hname
  have hdrop : name.dropWhile (· ≠ equals) = [] := List.dropWhile_eq_nil_iff.2 hname
  unfold pairField
  rw [htake, hdrop]
  rfl

/-- The positions of the loop when `piece` of the current piece has been read, with `before` in front of it. -/
inductive QueryScan.At (before piece : List UInt8) (s : QueryScan) : Prop
  | name (hpos : s.name_pos = before.length) (hname : equals ∉ piece) (hend : s.name_end_pos = none)
      (hvalue : s.value_pos = none)
  | value (name value : List UInt8) (hpos : s.name_pos = before.length) (hpiece : piece = name ++ equals :: value)
      (hname : equals ∉ name) (hend : s.name_end_pos = some (before.length + name.length))
      (hvalue : s.value_pos = some (before.length + name.length + 1))

section Scan

variable {before piece : List UInt8} {s : QueryScan}

/-- The field of the piece is what is added at an ampersand. -/
theorem QueryScan.At.emplace (h : s.At before piece) (after : List UInt8) :
    s.emplace (before ++ (piece ++ after)) (before.length + piece.length) =
      (pairField piece).elim s.result (· ::ₘ s.result) := by
  cases h with
  | name hpos hname hend hvalue =>
    have hsub : substr (before ++ (piece ++ after)) before.length piece.length = piece := substr_at rfl rfl
    unfold QueryScan.emplace
    rw [pairField_name hname, hpos, hend, hvalue]
    simp only [Option.getD_none, Nat.add_sub_cancel_left, hsub]
    split <;> rfl
  | value name value hpos hpiece hname hend hvalue =>
    have hsub : substr (before ++ (piece ++ after)) before.length name.length = name := by
      rw [hpiece, List.append_assoc]
      exact substr_at rfl rfl
    have hrest : substr (before ++ (piece ++ after)) (before.length + name.length + 1)
        (before.length + piece.length - (before.length + name.length + 1)) = value := by
      have hsplit : before ++ (piece ++ after) = (before ++ (name ++ [equals])) ++ (value ++ after) := by simp [hpiece]
      rw [hsplit]
      refine substr_at (by simp; omega) ?_
      rw [hpiece]
      simp
      omega
    unfold QueryScan.emplace
    rw [hpos, hend, hvalue, hpiece, pairField_pair hname, ← hpiece]
    simp only [Option.getD_some, Nat.add_sub_cancel_left, hsub, Option.elim_some, hrest]
    split <;> rfl

/-- And at the end of the string. -/
theorem QueryScan.At.finish (h : s.At before piece) :
    s.finish (before ++ piece) = (pairField piece).elim s.result (· ::ₘ s.result) := by
  have hdrop : (before ++ piece).drop before.length = piece := List.drop_left
  cases h with
  | name hpos hname hend hvalue =>
    unfold QueryScan.finish
    rw [pairField_name hname, hpos, hend, hvalue]
    simp only [List.length_append, Option.elim_none, hdrop]
    by_cases hne : piece = []
    · simp [hne]
    · have hlong := List.length_pos_iff.2 hne
      rw [if_pos (by omega), if_neg hne, if_neg hne]
      rfl
  | value name value hpos hpiece hname hend hvalue =>
    have hlength : (before ++ piece).length = before.length + name.length + 1 + value.length := by
      rw [hpiece]
      simp
      omega
    have hsub : substr (before ++ piece) before.length name.length = name := by
      rw [hpiece]
      exact substr_at rfl rfl
    have hrest : (if (before ++ piece).length ≤ before.length + name.length + 1 then []
        else (before ++ piece).drop (before.length + name.length + 1)) = value := by
      have hbehind : (before ++ piece).drop (before.length + name.length + 1) = value := by
        have hsplit : before ++ piece = (before ++ (name ++ [equals])) ++ value := by simp [hpiece]
        rw [hsplit]
        exact drop_at (by simp; omega)
      rw [hbehind, hlength]
      split
      · exact (List.length_eq_zero_iff.1 (by omega)).symm
      · rfl
    unfold QueryScan.finish
    rw [hpos, hend, hvalue, if_pos (by omega), hpiece, pairField_pair hname, ← hpiece]
    simp only [Option.elim_some, Nat.add_sub_cancel_left, hsub, hrest]
    split <;> rfl

/-- One more character of a piece. -/
theorem QueryScan.At.step (h : s.At before piece) {chr : UInt8} (hchr : chr ≠ ampersand) (query_string : List UInt8) :
    (s.step query_string (before.length + piece.length) chr).At before (piece ++ [chr]) ∧
      (s.step query_string (before.length + piece.length) chr).result = s.result := by
  unfold QueryScan.step
  rw [if_neg hchr]
  cases h with
  | name hpos hname hend hvalue =>
    by_cases heq : chr = equals
    · rw [if_pos ⟨heq, hend⟩, heq]
      exact ⟨.value piece [] hpos rfl hname rfl rfl, rfl⟩
    · rw [if_neg fun h => heq h.1]
      refine ⟨.name hpos ?_ hend hvalue, rfl⟩
      rw [List.mem_append, List.mem_singleton, not_or]
      exact ⟨hname, Ne.symm heq⟩
  | value name value hpos hpiece hname hend hvalue =>
    rw [if_neg fun h => absurd (hend.symm.trans h.2) (by simp)]
    exact ⟨.value name (value ++ [chr]) hpos (by rw [hpiece]; simp) hname hend hvalue, rfl⟩

/-- What the first of the pieces adds. -/
theorem pairField_add (piece : List UInt8) (pieces : List (List UInt8)) (result : CaseInsensitiveMultimap) :
    (pairField piece).elim result (· ::ₘ result) + (pieces.filterMap pairField : List Field) =
      result + ((piece :: pieces).filterMap pairField : List Field) := by
  cases h : pairField piece with
  | none => simp [h]
  | some field =>
    rw [List.filterMap_cons_some h, Option.elim_some, Multiset.cons_add, ← Multiset.cons_coe, Multiset.add_cons]

/-- The loop from inside a piece on: the fields of this piece and of all that follow. -/
theorem QueryScan.At.scan (h : s.At before piece) (hpiece : ampersand ∉ piece) (rest : List UInt8) :
    (QueryString.scan (before ++ (piece ++ rest)) (before.length + piece.length) rest s).finish
        (before ++ (piece ++ rest)) =
      s.result + (((piece ++ rest).splitOn ampersand).filterMap pairField : List Field) := by
  induction rest generalizing before piece s with
  | nil =>
    have hlast := pairField_add piece [] s.result
    rw [List.append_nil, QueryString.scan, h.finish, List.splitOn_eq_singleton hpiece, ← hlast]
    exact (Multiset.add_zero ((pairField piece).elim s.result (· ::ₘ s.result))).symm
  | cons chr rest ih =>
    by_cases hchr : chr = ampersand
    · -- a new piece begins
      have hstep : s.step (before ++ (piece ++ chr :: rest)) (before.length + piece.length) chr =
          { name_pos := (before ++ (piece ++ [ampersand])).length, name_end_pos := none, value_pos := none,
            result := (pairField piece).elim s.result (· ::ₘ s.result) } := by
        unfold QueryScan.step
        rw [if_pos hchr, h.emplace]
        simp
        omega
      have hquery : before ++ (piece ++ chr :: rest) = (before ++ (piece ++ [ampersand])) ++ ([] ++ rest) := by
        simp [hchr]
      have hlength : before.length + piece.length + 1 = (before ++ (piece ++ [ampersand])).length + 0 := by
        simp
        omega
      have hnext : (s.step (before ++ (piece ++ chr :: rest)) (before.length + piece.length) chr).At
          (before ++ (piece ++ [ampersand])) [] := by
        rw [hstep]
        exact .name rfl List.not_mem_nil rfl rfl
      have hrest := ih hnext List.not_mem_nil
      rw [← hquery, List.length_nil, ← hlength] at hrest
      rw [QueryString.scan, hrest, hstep, hchr, List.splitOn_append_cons_self_of_not_mem hpiece, List.nil_append,
        pairField_add]
    · obtain ⟨hnext, hresult⟩ := h.step hchr (before ++ (piece ++ chr :: rest))
      have hmem : ampersand ∉ piece ++ [chr] := by
        rw [List.mem_append, List.mem_singleton, not_or]
        exact ⟨hpiece, Ne.symm hchr⟩
      have hsplit : piece ++ chr :: rest = (piece ++ [chr]) ++ rest := by simp
      have hrest := ih hnext hmem
      rw [← hsplit, List.length_append, List.length_singleton, ← Nat.add_assoc, hresult] at hrest
      rw [QueryString.scan, hrest]

end Scan

/-- The fields of a query string are those of its pieces. -/
theorem QueryString.parse_eq (query_string : List UInt8) :
    QueryString.parse query_string = ((query_string.splitOn ampersand).filterMap pairField : List Field) := by
  unfold QueryString.parse
  by_cases h : query_string = []
  · rw [if_pos h, h]
    rfl
  · have hstart : QueryScan.At [] [] { name_pos := 0, name_end_pos := none, value_pos := none, result := 0 } :=
      .name rfl List.not_mem_nil rfl rfl
    have hscan := hstart.scan List.not_mem_nil query_string
    rw [if_neg h]
    simp only [Multiset.zero_add, List.nil_append, List.length_nil] at hscan
    exact hscan

/-! ## The round trip -/

theorem QueryString.create_eq (H : Hashing) (fields : CaseInsensitiveMultimap) :
    QueryString.create H fields =
      [ampersand].intercalate ((H.order fields).map fun field => field.1 ++ equals :: Percent.encode field.2) := by
  unfold QueryString.create
  -- after the first field, every field brings its ampersand
  have hlater : ∀ (result : List UInt8) (later : List Field),
      (later.foldl (fun (result, first) field =>
        (result ++ (if first then [] else [ampersand]) ++ field.1 ++ [equals] ++ Percent.encode field.2, false))
        (result, false)).1 =
      result ++ later.flatMap fun field => ampersand :: (field.1 ++ equals :: Percent.encode field.2) := by
    intro result later
    induction later generalizing result with
    | nil => simp
    | cons field later ih =>
      rw [List.foldl_cons, ih]
      simp
  have hjoin : ∀ (piece : List UInt8) (later : List Field),
      [ampersand].intercalate (piece :: later.map fun field => field.1 ++ equals :: Percent.encode field.2) =
        piece ++ later.flatMap fun field => ampersand :: (field.1 ++ equals :: Percent.encode field.2) := by
    intro piece later
    induction later generalizing piece with
    | nil => simp
    | cons field later ih =>
      rw [List.map_cons, List.intercalate_cons_cons, ih]
      simp
  cases H.order fields with
  | nil => rfl
  | cons field later =>
    rw [List.foldl_cons, hlater, List.map_cons, hjoin]
    simp

/-- What was written is read: the names as they are, and any values. -/
theorem query_string_returned (H : Hashing) {fields : CaseInsensitiveMultimap}
    (h : ∀ field ∈ fields, field.1 ≠ [] ∧ ampersand ∉ field.1 ∧ equals ∉ field.1) :
    QueryString.parse (QueryString.create H fields) = fields := by
  have hread : ∀ written : List Field, (∀ field ∈ written, field.1 ≠ [] ∧ equals ∉ field.1) →
      (written.map fun field => field.1 ++ equals :: Percent.encode field.2).filterMap pairField = written := by
    intro written hwritten
    induction written with
    | nil => rfl
    | cons field written ih =>
      obtain ⟨hne, hname⟩ := hwritten field List.mem_cons_self
      have hfield : pairField (field.1 ++ equals :: Percent.encode field.2) = some field := by
        rw [pairField_pair hname, if_neg hne, Percent.decode_encode]
      rw [List.map_cons, List.filterMap_cons_some hfield, ih fun f hf => hwritten f (List.mem_cons_of_mem _ hf)]
  have hmem : ∀ field, field ∈ H.order fields → field ∈ fields := by
    intro field hfield
    rwa [← Multiset.mem_coe, H.fields] at hfield
  rw [QueryString.parse_eq, QueryString.create_eq]
  by_cases hnone : H.order fields = []
  · have hempty : 0 = fields := by
      rw [← H.fields fields, hnone]
      rfl
    rw [hnone, ← hempty]
    rfl
  · rw [List.splitOn_intercalate, hread, H.fields]
    · exact fun field hfield => ⟨(h field (hmem field hfield)).1, (h field (hmem field hfield)).2.2⟩
    · intro piece hpiece
      obtain ⟨field, hfield, rfl⟩ := List.mem_map.1 hpiece
      simp only [List.mem_append, List.mem_cons, not_or]
      exact ⟨(h field (hmem field hfield)).2.1, by decide, Percent.encode_ampersand field.2⟩
    · simpa using hnone

theorem query_string_returned_reserved : ∃ H : Hashing,
    QueryString.parse (QueryString.create H {(text "q", text "a&b=c d+e%"), (text "page", text "")}) =
      {(text "q", text "a&b=c d+e%"), (text "page", text "")} := by
  refine ⟨⟨Multiset.toList, Multiset.coe_toList⟩, query_string_returned _ fun field hfield => ?_⟩
  rcases Multiset.mem_cons.1 hfield with rfl | hfield
  · decide
  · rw [Multiset.mem_singleton.1 hfield]
    decide

end SimpleWeb

end Undertone
