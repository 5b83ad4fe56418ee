import PennCloud.Frontend.HeaderSections

/-!
# Framing of responses

A response is a header section and its content. The section ends where the first empty line is, whatever
the content has in it, since no name and no value of a header breaks its line; so a reader finds the
length and the content whatever the order of the headers.
-/

open PennCloud.Library.CppString PennCloud.Library.TextSearch PennCloud.KV.TabletCells
open PennCloud.Frontend.KVClient PennCloud.Frontend.HttpText PennCloud.Frontend.HeaderSections

namespace PennCloud.Frontend.ResponseFraming

/-! ## Reading a response -/

/-- The lines between the first one and the first empty one. -/
def headerLines (raw : Bytes) : List Bytes :=
  (cut crlf (raw.take ((parseBody raw).1 + 2))).1.tail

/-- The value in a line that has this name. -/
def valueIn (name line : Bytes) : Option Bytes :=
  (fieldOf line).bind fun field ↦ if field.1 = name then some field.2 else none

/-- The values of all headers with this name. -/
def headerValues (name raw : Bytes) : List Bytes := (headerLines raw).filterMap (valueIn name)

/-- A response of one of the two functions, with its headers in any order. -/
structure Generated (status content : Bytes) (response : Response) : Prop where
  headers : response.headers.entries.Perm (generateStandardResponse status content).headers.entries ∨
    response.headers.entries.Perm (generateCorsResponse status content).headers.entries
  content : response.content = content
  status : response.status = status

/-- The lines of a header section are its fields. -/
theorem headerLines_text (s : HeaderSection) (body : Bytes) :
    headerLines (s.text ++ body) = s.fields := by
  have hlines : ∀ line ∈ s.line :: s.fields, 13 ∉ line :=
    List.forall_mem_cons.mpr ⟨s.line_ends.1, fun field hfield ↦ (s.fields_end field hfield).2.1⟩
  have htext : s.text = ((s.line :: s.fields).map (· ++ crlf)).flatten ++ crlf := by
    rw [HeaderSection.text, List.map_cons, List.flatten_cons, ← List.flatMap_def]
  have hlength : s.text.length - 4 + 2 = ((s.line :: s.fields).map (· ++ crlf)).flatten.length := by
    rw [htext, List.map_cons, List.flatten_cons]
    simp only [crlf, List.length_append, List.length_cons, List.length_nil]
    omega
  have htake : (s.text ++ body).take (s.text.length - 4 + 2) =
      ((s.line :: s.fields).map (· ++ crlf)).flatten := by
    rw [hlength]
    conv_lhs => rw [htext, List.append_assoc]
    exact List.take_left
  have hcut : cut crlf (((s.line :: s.fields).map (· ++ crlf)).flatten ++ []) =
      (s.line :: s.fields ++ [], []) := cut_lines hlines []
  rw [List.append_nil, List.append_nil] at hcut
  rw [headerLines, parseBody_text, htake, hcut, List.tail_cons]

/-! ## The section of a response -/

/-- A text within a line. -/
def Unbroken (text : Bytes) : Prop := 13 ∉ text ∧ 10 ∉ text

instance (text : Bytes) : Decidable (Unbroken text) :=
  inferInstanceAs (Decidable (13 ∉ text ∧ 10 ∉ text))

theorem Unbroken.append {front text : Bytes} (hfront : Unbroken front) (htext : Unbroken text) :
    Unbroken (front ++ text) := by
  constructor
  · rw [List.mem_append, not_or]
    exact ⟨hfront.1, htext.1⟩
  · rw [List.mem_append, not_or]
    exact ⟨hfront.2, htext.2⟩

theorem unbroken_decimal (n : ℕ) : Unbroken (decimal n) := by
  have hlow : ∀ b ∈ decimal n, 48 ≤ b := fun b hb ↦ (isDigit_of_mem_decimal hb).1
  exact ⟨fun h ↦ absurd (hlow 13 h) (by decide), fun h ↦ absurd (hlow 10 h) (by decide)⟩

/-- A header that a line can hold. -/
structure Header (name value : Bytes) : Prop where
  colon : colon ∉ name
  name : Unbroken name
  value : Unbroken value

def headerLine (header : Sigma fun _ : Bytes ↦ Bytes) : Bytes :=
  header.1 ++ lit ": " ++ header.2

theorem headerLine_unbroken {header : Sigma fun _ : Bytes ↦ Bytes} (h : Header header.1 header.2) :
    headerLine header ≠ [] ∧ 13 ∉ headerLine header ∧ 10 ∉ headerLine header := by
  refine ⟨?_, (h.name.append (by decide)).append h.value⟩
  simp [headerLine, lit]

/-- Name and value are read back from a line. -/
theorem valueIn_headerLine {header : Sigma fun _ : Bytes ↦ Bytes} (h : Header header.1 header.2)
    (name : Bytes) :
    valueIn name (headerLine header) = if header.1 = name then some header.2 else none := by
  have hline : headerLine header = header.1 ++ colon :: 32 :: header.2 := by
    rw [headerLine, List.append_assoc]
    rfl
  rw [valueIn, fieldOf, hline, find?_singleton_append h.colon, Option.map_some, Option.bind_some,
    List.take_left, List.drop_length_add_append]
  rfl

section Response

variable {response : Response} (hstatus : Unbroken response.status)
  (hheaders : ∀ header ∈ response.headers.entries, Header header.1 header.2)

/-- A response up to its content. -/
def sectionOf : HeaderSection where
  line := lit "HTTP/1.1 " ++ response.status
  fields := response.headers.entries.map headerLine
  line_ends := Unbroken.append (by decide) hstatus
  fields_end := by
    rw [List.forall_mem_map]
    exact fun header hheader ↦ headerLine_unbroken (hheaders header hheader)

theorem text_eq : response.text = (sectionOf hstatus hheaders).text ++ response.content := by
  have hlines : (response.headers.entries.map fun header ↦
      header.1 ++ lit ": " ++ header.2 ++ lit "\r\n").flatten =
        (response.headers.entries.map headerLine).flatMap (· ++ crlf) := by
    rw [List.flatMap_map, ← List.flatMap_def]
    rfl
  rw [Response.text, hlines, HeaderSection.text]
  rfl

include hstatus hheaders

theorem parseBody_response : (parseBody response.text).2 = response.content := by
  rw [text_eq hstatus hheaders, parseBody_text]

theorem headerLines_response :
    headerLines response.text = response.headers.entries.map headerLine := by
  rw [text_eq hstatus hheaders, headerLines_text]
  rfl

theorem headerValues_response (name : Bytes) :
    headerValues name response.text =
      response.headers.entries.filterMap fun header ↦
        if header.1 = name then some header.2 else none := by
  rw [headerValues, headerLines_response hstatus hheaders, List.filterMap_map]
  exact List.filterMap_congr fun header hheader ↦ valueIn_headerLine (hheaders header hheader) name

end Response

/-! ## The two functions -/

theorem entries_generateStandardResponse (status content : Bytes) :
    (generateStandardResponse status content).headers.entries =
      [⟨lit "Content-Type", lit "text/plain"⟩, ⟨lit "Content-Length", decimal content.length⟩] := rfl

theorem entries_generateCorsResponse (status content : Bytes) :
    (generateCorsResponse status content).headers.entries =
      [⟨lit "Access-Control-Allow-Origin", lit "*"⟩,
        ⟨lit "Access-Control-Allow-Methods", lit "POST, GET, OPTIONS"⟩,
        ⟨lit "Access-Control-Allow-Headers", lit "Content-Type"⟩,
        ⟨lit "Content-Type", lit "text/plain"⟩,
        ⟨lit "Content-Length", decimal content.length⟩] := rfl

theorem header_length (n : ℕ) : Header (lit "Content-Length") (decimal n) :=
  ⟨by decide, by decide, unbroken_decimal n⟩

section Generated

variable {status content : Bytes} {response : Response} (h : Generated status content response)

include h

theorem header_of_generated :
    ∀ header ∈ response.headers.entries, Header header.1 header.2 := by
  intro header hheader
  have hmem : header ∈ (generateCorsResponse status content).headers.entries := by
    rcases h.headers with hstandard | hcors
    · have hshort := hstandard.mem_iff.mp hheader
      rw [entries_generateStandardResponse] at hshort
      rw [entries_generateCorsResponse]
      exact List.mem_of_mem_drop (i := 3) hshort
    · exact hcors.mem_iff.mp hheader
  rw [entries_generateCorsResponse] at hmem
  simp only [List.mem_cons, List.not_mem_nil, or_false] at hmem
  rcases hmem with rfl | rfl | rfl | rfl | rfl
  · exact ⟨by decide, by decide, by decide⟩
  · exact ⟨by decide, by decide, by decide⟩
  · exact ⟨by decide, by decide, by decide⟩
  · exact ⟨by decide, by decide, by decide⟩
  · exact header_length _

theorem lengths_of_generated :
    (response.headers.entries.filterMap fun header ↦
      if header.1 = lit "Content-Length" then some header.2 else none) =
        [decimal content.length] := by
  rcases h.headers with hstandard | hcors
  · exact List.perm_singleton.mp (hstandard.filterMap _)
  · exact List.perm_singleton.mp (hcors.filterMap _)

end Generated

/-- A generated response has one length, which is that of its content, and its content is found. -/
theorem response_framed {status content : Bytes} {response : Response} (hstatus : Unbroken status)
    (h : Generated status content response) :
    headerValues (lit "Content-Length") response.text = [decimal content.length] ∧
      (parseBody response.text).2 = content := by
  rw [← h.status] at hstatus
  constructor
  · rw [headerValues_response hstatus (header_of_generated h), lengths_of_generated h]
  · rw [parseBody_response hstatus (header_of_generated h), h.content]

/-- An empty line in the content does not matter. -/
theorem response_framed_blank :
    headerValues (lit "Content-Length")
        (generateStandardResponse (lit "200 OK") (lit "a\r\n\r\nb")).text = [lit "6"] ∧
      (parseBody (generateStandardResponse (lit "200 OK") (lit "a\r\n\r\nb")).text).2 =
        lit "a\r\n\r\nb" :=
  response_framed (by decide) ⟨.inl (List.Perm.refl _), rfl, rfl⟩

end PennCloud.Frontend.ResponseFraming
