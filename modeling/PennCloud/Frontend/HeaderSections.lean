import PennCloud.Frontend.HttpText

/-!
# Headers and bodies

A header section ends with an empty line, and `parse_body` looks for it. The loop of `parse_request`
does not: it reads entries up to carriage returns to the end of the request, so an entry of the body
that has a colon is stored like a header and replaces one of the same name. Two requests with one header
section have the same headers exactly if their bodies do not tell them apart in this way.
-/

open PennCloud.Library.CppString PennCloud.Library.TextSearch
open PennCloud.KV.TabletCells PennCloud.Frontend.KVClient PennCloud.Frontend.HttpText

namespace PennCloud.Frontend.HeaderSections

/-- The end of a line. -/
def crlf : Bytes := [13, 10]

/-- A request line and header fields, each on a line of its own. -/
structure HeaderSection where
  line : Bytes
  fields : List Bytes
  line_ends : 13 ∉ line ∧ 10 ∉ line
  fields_end : ∀ field ∈ fields, field ≠ [] ∧ 13 ∉ field ∧ 10 ∉ field

/-- Everything up to and including the empty line. -/
def HeaderSection.text (s : HeaderSection) : Bytes :=
  s.line ++ crlf ++ s.fields.flatMap (· ++ crlf) ++ crlf

/-! ## The end of the section -/

/-- Behind a line end the first empty line ends the fields. -/
theorem find?_fields {fields : List Bytes}
    (h : ∀ field ∈ fields, field ≠ [] ∧ 13 ∉ field ∧ 10 ∉ field) (body : Bytes) :
    find? (crlf ++ crlf) (crlf ++ (fields.flatMap (· ++ crlf) ++ crlf ++ body)) =
      some (fields.flatMap (· ++ crlf)).length := by
  induction fields with
  | nil => exact find?_eq_zero_iff.mpr (List.prefix_append (crlf ++ crlf) body)
  | cons field fields ih =>
    rw [List.forall_mem_cons] at h
    obtain ⟨⟨hne, hcr, -⟩, hfields⟩ := h
    have hfront : (13 : UInt8) ∉ 10 :: field := by simpa using hcr
    have hmore : crlf ++ ((field :: fields).flatMap (· ++ crlf) ++ crlf ++ body) =
        13 :: ((10 :: field) ++ (crlf ++ (fields.flatMap (· ++ crlf) ++ crlf ++ body))) := by
      simp [crlf]
    have hfirst : ¬crlf ++ crlf <+:
        13 :: ((10 :: field) ++ (crlf ++ (fields.flatMap (· ++ crlf) ++ crlf ++ body))) := by
      obtain ⟨c, field', rfl⟩ := List.exists_cons_of_ne_nil hne
      intro hbegins
      apply hcr
      simp only [crlf, List.cons_append, List.nil_append, List.cons_prefix_cons] at hbegins
      rw [hbegins.2.2.1]
      exact List.mem_cons_self
    rw [hmore, find?, if_neg hfirst]
    refine (congrArg _ (find?_append_right hfront [10, 13, 10] _)).trans ?_
    refine (congrArg _ (congrArg _ (ih hfields))).trans ?_
    simp [crlf]
    omega

/-- `parse_body` stops where the section ends. -/
theorem parseBody_text (s : HeaderSection) (body : Bytes) :
    parseBody (s.text ++ body) = (s.text.length - 4, body) := by
  have hline := find?_append_right s.line_ends.1 [10, 13, 10]
    (crlf ++ (s.fields.flatMap (· ++ crlf) ++ crlf ++ body))
  rw [show (13 :: [10, 13, 10] : Bytes) = crlf ++ crlf from rfl, find?_fields s.fields_end,
    Option.map_some] at hline
  have htext : s.text ++ body =
      s.line ++ (crlf ++ (s.fields.flatMap (· ++ crlf) ++ crlf ++ body)) := by
    simp [HeaderSection.text]
  have hlength : (s.fields.flatMap (· ++ crlf)).length + s.line.length = s.text.length - 4 := by
    simp only [HeaderSection.text, crlf, List.length_append, List.length_cons, List.length_nil]
    omega
  have hlong : s.text.length - 4 + 4 = s.text.length := by
    simp only [HeaderSection.text, crlf, List.length_append, List.length_cons, List.length_nil]
    omega
  rw [← htext, hlength] at hline
  unfold parseBody
  rw [show lit "\r\n\r\n" = crlf ++ crlf from rfl, hline]
  simp only [hlong, List.drop_left]

/-! ## Entries -/


theorem headerEntries_cons {b : UInt8} (h : b ≠ 13) (entry rest : Bytes) :
    headerEntries entry (b :: rest) = headerEntries (entry ++ [b]) rest := by
  rw [headerEntries]
  · intro _ _ hb _
    exact h hb
  · intro hb _
    exact h hb

/-- An entry ends with a carriage return, and the byte behind that is skipped. -/
theorem headerEntries_append {front : Bytes} (h : 13 ∉ front) (entry : Bytes) (c : UInt8)
    (rest : Bytes) :
    headerEntries entry (front ++ 13 :: c :: rest) = (entry ++ front) :: headerEntries [] rest := by
  induction front generalizing entry with
  | nil => rw [List.nil_append, headerEntries, List.append_nil]
  | cons b front ih =>
    rw [List.mem_cons, not_or] at h
    rw [List.cons_append, headerEntries_cons (Ne.symm h.1), ih h.2, List.append_assoc]
    rfl

/-- The entries of a header section and of what follows it. -/
theorem headerEntries_section {fields : List Bytes} (h : ∀ field ∈ fields, 13 ∉ field)
    (body : Bytes) :
    headerEntries [] (fields.flatMap (· ++ crlf) ++ crlf ++ body) =
      fields ++ [] :: headerEntries [] body := by
  induction fields with
  | nil => exact headerEntries_append List.not_mem_nil [] 10 body
  | cons field fields ih =>
    rw [List.forall_mem_cons] at h
    have hentry := headerEntries_append h.1 [] 10 (fields.flatMap (· ++ crlf) ++ crlf ++ body)
    rw [ih h.2, List.nil_append] at hentry
    simpa [crlf] using hentry

/-- Name and value of an entry with a colon. -/
def fieldOf (entry : Bytes) : Option (Bytes × Bytes) :=
  (find? [colon] entry).map fun p ↦ (entry.take p, entry.drop (p + 2))

/-- The value in the last entry of a name. -/
def lastField (name : Bytes) : List Bytes → Option Bytes
  | [] => none
  | entry :: entries =>
    (lastField name entries).or
      ((fieldOf entry).bind fun field ↦ if field.1 = name then some field.2 else none)

theorem lastField_append (name : Bytes) (entries more : List Bytes) :
    lastField name (entries ++ more) = (lastField name more).or (lastField name entries) := by
  induction entries with
  | nil => rw [List.nil_append, lastField, Option.or_none]
  | cons entry entries ih => rw [List.cons_append, lastField, ih, lastField, Option.or_assoc]

theorem lookup_addHeader {headers headers' : StringMap} {entry : Bytes}
    (h : addHeader headers entry = .ok headers') (name : Bytes) :
    headers'.lookup name =
      ((fieldOf entry).bind fun field ↦ if field.1 = name then some field.2 else none).or
        (headers.lookup name) := by
  unfold addHeader at h
  unfold fieldOf
  cases hcolon : find? [colon] entry with
  | none =>
    rw [hcolon] at h
    cases h
    rfl
  | some p =>
    simp only [hcolon, substrFrom] at h
    split at h
    · cases h
    · cases h
      by_cases hname : entry.take p = name
      · subst hname
        simp [AList.lookup_insert]
      · simp [hname, AList.lookup_insert_ne (Ne.symm hname)]

/-- The header loop keeps the last value of each name. -/
theorem lookup_foldlM_addHeader {headers headers' : StringMap} {entries : List Bytes}
    (h : entries.foldlM addHeader headers = .ok headers') (name : Bytes) :
    headers'.lookup name = (lastField name entries).or (headers.lookup name) := by
  induction entries generalizing headers with
  | nil =>
    cases h
    rfl
  | cons entry entries ih =>
    simp only [List.foldlM_cons, bind, Except.bind] at h
    cases hentry : addHeader headers entry with
    | error e =>
      rw [hentry] at h
      cases h
    | ok between =>
      rw [hentry] at h
      rw [ih h, lookup_addHeader hentry, lastField, Option.or_assoc]

/-! ## Two requests with one header section -/

/-- What the header loop reads of a request: the fields, an empty entry, and the body. -/
theorem parseRequest_headers {currentDir body : Bytes} {s : HeaderSection} {request : Request}
    (h : parseRequest currentDir (s.text ++ body) = .ok request) (name : Bytes) :
    request.headers.lookup name =
      (lastField name (headerEntries [] body)).or (lastField name s.fields) := by
  have hstream : ((s.text ++ body).dropWhile (· ≠ 10)).drop 1 =
      s.fields.flatMap (· ++ crlf) ++ crlf ++ body := by
    have hline : 10 ∉ s.line ++ [13] := by
      rw [List.mem_append, not_or]
      exact ⟨s.line_ends.2, by decide⟩
    have htext : s.text ++ body =
        (s.line ++ [13]) ++ 10 :: (s.fields.flatMap (· ++ crlf) ++ crlf ++ body) := by
      simp [HeaderSection.text, crlf]
    rw [htext, dropWhile_ne_append_cons hline]
    rfl
  unfold parseRequest at h
  dsimp only at h
  rw [hstream, headerEntries_section fun field hfield ↦ (s.fields_end field hfield).2.1] at h
  split at h
  · split at h
    · next headers hfold =>
      cases h
      have hempty : fieldOf [] = none := rfl
      rw [lookup_foldlM_addHeader hfold, AList.lookup_empty, Option.or_none, lastField_append,
        lastField, hempty, Option.bind_none, Option.or_none]
    · cases h
  · cases h

/-- The bodies do not show in the headers and not in the session id. -/
structure SameHeaders (first second : Request) : Prop where
  headers : ∀ name, first.headers.lookup name = second.headers.lookup name
  session : getCookieFromHeader first.headers = getCookieFromHeader second.headers

/-- Exactly if every name ends up with one value in both requests, be it from the entries of the body
or, if none there has the name, from the fields. -/
theorem sameHeaders_iff {currentDir first second : Bytes} {s : HeaderSection}
    {request other : Request} (hfirst : parseRequest currentDir (s.text ++ first) = .ok request)
    (hsecond : parseRequest currentDir (s.text ++ second) = .ok other) :
    SameHeaders request other ↔ ∀ name,
      (lastField name (headerEntries [] first)).or (lastField name s.fields) =
        (lastField name (headerEntries [] second)).or (lastField name s.fields) := by
  simp only [← parseRequest_headers hfirst, ← parseRequest_headers hsecond]
  constructor
  · intro hsame
    exact hsame.headers
  · intro hheaders
    refine ⟨hheaders, ?_⟩
    unfold getCookieFromHeader
    rw [hheaders]

/-- The header section of a request with a cookie. -/
def cookieSection : HeaderSection where
  line := lit "GET /inbox HTTP/1.1"
  fields := [lit "Cookie: session_id=a"]
  line_ends := by decide
  fields_end := by decide

theorem sameHeaders_iff_noColon : ∃ request other,
    parseRequest [] (cookieSection.text ++ []) = .ok request ∧
      parseRequest [] (cookieSection.text ++ lit "x=1") = .ok other ∧
      SameHeaders request other := by
  obtain ⟨request, hrequest⟩ :
      ∃ request, parseRequest [] (cookieSection.text ++ []) = .ok request := ⟨_, rfl⟩
  obtain ⟨other, hother⟩ :
      ∃ other, parseRequest [] (cookieSection.text ++ lit "x=1") = .ok other := ⟨_, rfl⟩
  refine ⟨request, other, hrequest, hother, (sameHeaders_iff hrequest hother).mpr fun name ↦ ?_⟩
  have hentries : headerEntries [] (lit "x=1") = [lit "x=1"] := by decide
  have hcolon : fieldOf (lit "x=1") = none := by decide
  rw [hentries, lastField, hcolon]
  rfl

/-- A body with a cookie of its own changes the session id. -/
theorem body_forges_cookie : ∃ request other,
    parseRequest [] (cookieSection.text ++ []) = .ok request ∧
      parseRequest [] (cookieSection.text ++ lit "Cookie: session_id=b") = .ok other ∧
      getCookieFromHeader request.headers = lit "a" ∧
      getCookieFromHeader other.headers = lit "b" ∧ ¬SameHeaders request other := by
  refine ⟨_, _, rfl, rfl, rfl, rfl, fun hsame ↦ ?_⟩
  have hsession := hsame.session
  revert hsession
  decide

end PennCloud.Frontend.HeaderSections
