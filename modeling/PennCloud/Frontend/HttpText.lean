import PennCloud.Library.TextSearch
import PennCloud.Frontend.KVClient
import Mathlib.Logic.Function.Iterate

/-!
# The text of requests and responses

Parsing of raw requests, of bodies and of cookies, the string helpers of `RequestHandler`, and its
responses. An `unordered_map` of strings is an association list whose order is the order of
iteration. A position that `find` returns is an option; `none` is `npos`.
-/

open PennCloud.Library.CppString PennCloud.Library.TextSearch PennCloud.KV.TabletCells
open PennCloud.Frontend.KVClient

namespace PennCloud.Frontend.HttpText

abbrev StringMap := AList fun _ : Bytes ↦ Bytes

/-- `map[key]`; that a missing key is created does not matter where the map is not iterated. -/
def StringMap.at (map : StringMap) (key : Bytes) : Bytes := (map.lookup key).getD []

/-! ## Strings -/

/-- `text.find(pattern) != npos`. -/
def contains (text pattern : Bytes) : Bool := (find? pattern text).isSome

/-- `text.find(pattern)` as a condition: every position but 0 is true, `npos` included. -/
def findTest (text pattern : Bytes) : Bool := find? pattern text ≠ some 0

/-- `text.substr(pos)`. -/
def substrFrom (text : Bytes) (pos : ℕ) : Except StdException Bytes :=
  if text.length < pos then .error .outOfRange else .ok (text.drop pos)

/-- The pieces that `while (getline(stream, piece, delimiter))` reads. -/
def getlines (text : Bytes) (delimiter : UInt8) : List Bytes :=
  let pieces := text.splitOn delimiter
  if pieces.getLast? = some [] then pieces.dropLast else pieces

/-- `RequestHandler::split`: unlike `getline` it keeps an empty last piece. -/
def split (str : Bytes) (delimiter : UInt8) : List Bytes := str.splitOn delimiter

def join (vec : List Bytes) (delimiter : Bytes) : Bytes := delimiter.intercalate vec

/-- All pieces but the last are followed by the delimiter. -/
theorem join_concat (pieces : List Bytes) (last delimiter : Bytes) :
    join (pieces ++ [last]) delimiter = (pieces.map (· ++ delimiter)).flatten ++ last := by
  induction pieces with
  | nil => exact List.intercalate_singleton
  | cons piece pieces ih =>
    rw [List.cons_append, join, List.intercalate_cons_of_ne_nil (by simp), ← join, ih, List.map_cons,
      List.flatten_cons]
    simp only [List.append_assoc]

/-- The characters the handlers cut at. -/
def comma : UInt8 := 44
def colon : UInt8 := 58
def plus : UInt8 := 43
def slash : UInt8 := 47

/-- Replace the first `pattern` by `replacement`. -/
def replaceFirst (text pattern replacement : Bytes) : Bytes :=
  match find? pattern text with
  | some p => text.take p ++ replacement ++ text.drop (p + pattern.length)
  | none => text

/-- `while (text contains ",,") replace it by ","`; every round makes the text shorter. -/
def collapseCommas (text : Bytes) : Bytes :=
  (fun text ↦ replaceFirst text (lit ",,") (lit ","))^[text.length] text

/-- Drop a leading and a trailing comma. -/
def trimCommas (text : Bytes) : Bytes :=
  let text := if text.head? = some comma then text.tail else text
  if text.getLast? = some comma then text.dropLast else text

/-! ## Requests -/

/-- The part of a raw request behind its header section, with the position of the latter's end. -/
def parseBody (rawRequest : Bytes) : ℕ × Bytes :=
  match find? (lit "\r\n\r\n") rawRequest with
  | some p => (p, rawRequest.drop (p + 4))
  | none => (rawRequest.length, [])

/-- The loop of `parse_json`. -/
structure JsonState where
  params : StringMap := ∅
  isKey : Bool := true
  inQuotes : Bool := false
  isValue : Bool := false
  key : Bytes := []
  value : Bytes := []

def JsonState.step (s : JsonState) (c : UInt8) : JsonState :=
  if c = 123 ∨ c = 125 ∨ c = 9 ∨ c = 10 then
    s
  else if c = colon then
    if s.inQuotes then
      if s.isValue then { s with value := s.value ++ [c] } else s
    else
      { s with isKey := false, isValue := true }
  else if c = comma then
    if s.inQuotes then
      if s.isValue then { s with value := s.value ++ [c] } else s
    else
      { s with
        params := s.params.insert s.key s.value
        key := []
        value := []
        isKey := true
        isValue := false }
  else if c = 34 then
    { s with inQuotes := !s.inQuotes }
  else if s.inQuotes then
    if s.isKey then { s with key := s.key ++ [c] }
    else if s.isValue then { s with value := s.value ++ [c] }
    else s
  else s

def parseJson (body : Bytes) : StringMap :=
  let s := body.foldl JsonState.step {}
  if s.key ≠ [] ∧ s.value ≠ [] then s.params.insert s.key s.value else s.params

/-- `headers[line.substr(0, pos)] = line.substr(pos + 2)`, `pos` being the first colon. -/
def addHeader (headers : StringMap) (line : Bytes) : Except StdException StringMap :=
  match find? [colon] line with
  | some p => do
    let value ← substrFrom line (p + 2)
    return headers.insert (line.take p) value
  | none => .ok headers

/-- What `getline(stream, entry, '\r')` and `ignore(1)` read by turns. -/
def headerEntries (entry : Bytes) : Bytes → List Bytes
  | 13 :: _ :: rest => entry :: headerEntries [] rest
  | [13] => [entry]
  | b :: rest => headerEntries (entry ++ [b]) rest
  | [] => if entry = [] then [] else [entry]

structure Request where
  method : Bytes
  url : Bytes
  workingDir : Bytes
  headers : StringMap

/-- The request line is cut by `split` of the common utilities, which reads with `getline`; its first
two parts are read whether or not they are there. -/
def parseRequest (currentDir rawRequest : Bytes) : Except Thrown Request :=
  let line := rawRequest.takeWhile (· ≠ 10)
  let stream := (rawRequest.dropWhile (· ≠ 10)).drop 1
  match getlines line 32 with
  | method :: url :: _ =>
    match (headerEntries [] stream).foldlM addHeader ∅ with
    | .ok headers =>
      .ok { method := method, url := url, workingDir := currentDir, headers := headers }
    | .error e => .error (.std e)
  | _ => .error .undefined

def getCookieFromHeader (headers : StringMap) : Bytes :=
  match headers.lookup (lit "Cookie") with
  | some cookies =>
    match find? (lit "session_id=") cookies with
    | some p => cookies.drop (p + 11)
    | none => []
  | none => []

/-! ## Responses -/

structure Response where
  status : Bytes
  headers : StringMap
  content : Bytes

/-- `generate_response`: the bytes of a response. -/
def Response.text (response : Response) : Bytes :=
  lit "HTTP/1.1 " ++ response.status ++ lit "\r\n" ++
    (response.headers.entries.map fun header ↦
      header.1 ++ lit ": " ++ header.2 ++ lit "\r\n").flatten ++
    lit "\r\n" ++ response.content

def generateStandardResponse (status content : Bytes) : Response where
  status := status
  headers := ((∅ : StringMap).insert (lit "Content-Length") (decimal content.length)).insert
    (lit "Content-Type") (lit "text/plain")
  content := content

def generateCorsResponse (status content : Bytes) : Response where
  status := status
  headers := ((((∅ : StringMap).insert (lit "Content-Length") (decimal content.length)).insert
    (lit "Content-Type") (lit "text/plain")).insert
    (lit "Access-Control-Allow-Headers") (lit "Content-Type")).insert
    (lit "Access-Control-Allow-Methods") (lit "POST, GET, OPTIONS") |>.insert
    (lit "Access-Control-Allow-Origin") (lit "*")
  content := content

/-- The answer of every mail and storage handler that succeeds. -/
def corsOk (content : Bytes) : Response := generateCorsResponse (lit "200 OK") content

/-- The files of the frontend's machine. -/
abbrev Disk := Bytes → Option Bytes

/-- A page that cannot be opened is served empty. -/
def serveWebpage (disk : Disk) (location : Bytes) : Response :=
  let content := (disk location).getD []
  { status := lit "200 OK"
    headers := ((∅ : StringMap).insert (lit "Content-Type") (lit "text/html")).insert
      (lit "Content-Length") (decimal content.length)
    content := content }

/-- The size of an image that cannot be opened is -1, and no string has that many bytes. -/
def serveImage (disk : Disk) (location : Bytes) : Except StdException Response :=
  match disk location with
  | some content =>
    .ok {
      status := lit "200 OK"
      headers := ((∅ : StringMap).insert (lit "Content-Type") (lit "image/png")).insert
        (lit "Content-Length") (decimal content.length)
      content := content }
  | none => .error .lengthError

/-! ## Positions -/

theorem findTest_eq_false_iff {text pattern : Bytes} :
    findTest text pattern = false ↔ pattern <+: text := by
  rw [← find?_eq_zero_iff]
  simp [findTest]

end PennCloud.Frontend.HttpText
