import PennCloud.Frontend.Routing

/-!
# Which requests are answered

`parse_request` reads the first two parts of the request line and, in every entry up to a carriage
return, what stands two bytes behind the first colon, without a look at how long these are. A frontend
that is shut down ends its function without a `return` on all but two urls, and one that serves makes a
string of the size of an image that may not be there. The thread of a client is detached and nothing
catches there, so a request that fails in one of these ways ends the process.
-/

open PennCloud.Library.CppString PennCloud.Library.TextSearch PennCloud.Library.Programs
open PennCloud.KV.TabletCells PennCloud.Frontend.KVClient PennCloud.Frontend.HttpText
open PennCloud.Frontend.Routing

namespace PennCloud.Frontend.RequestParsing

/-! ## The request line -/

theorem getlines_of_not_mem {text : Bytes} {b : UInt8} (h : b ∉ text) (hne : text ≠ []) :
    getlines text b = [text] := by
  have hlast : ([text] : List Bytes).getLast? ≠ some [] := by simpa using hne
  rw [getlines, List.splitOn_eq_singleton h, if_neg hlast]

theorem getlines_nil (b : UInt8) : getlines [] b = [] := by
  rw [getlines, List.splitOn_eq_singleton List.not_mem_nil]
  rfl

/-- The piece before the first delimiter, and the pieces of what follows it. -/
theorem getlines_append_cons {piece : Bytes} {b : UInt8} (h : b ∉ piece) (rest : Bytes) :
    getlines (piece ++ b :: rest) b = piece :: getlines rest b := by
  obtain ⟨first, pieces, hpieces⟩ := List.exists_cons_of_ne_nil (List.splitOn_ne_nil b rest)
  simp only [getlines, List.splitOn_append_cons_self_of_not_mem h, hpieces, List.getLast?_cons_cons]
  split
  · rfl
  · rfl

theorem getlines_ne_nil {text : Bytes} {b : UInt8} (h : text ≠ []) : getlines text b ≠ [] := by
  by_cases hmem : b ∈ text
  · obtain ⟨piece, rest, rfl, hpiece⟩ := List.eq_append_cons_of_mem hmem
    rw [getlines_append_cons hpiece]
    exact List.cons_ne_nil _ _
  · rw [getlines_of_not_mem hmem h]
    exact List.cons_ne_nil _ _

/-- The first piece of a text that is not empty. -/
theorem head?_getlines {text : Bytes} {b : UInt8} (h : text ≠ []) :
    (getlines text b).head? = some (text.takeWhile (· ≠ b)) := by
  by_cases hmem : b ∈ text
  · obtain ⟨piece, rest, rfl, hpiece⟩ := List.eq_append_cons_of_mem hmem
    rw [getlines_append_cons hpiece, takeWhile_ne_append_cons hpiece, List.head?_cons]
  · rw [getlines_of_not_mem hmem h, takeWhile_ne_of_not_mem hmem, List.head?_cons]

/-- The line has a second part. -/
def HasTwoParts (line : Bytes) : Prop := ∃ front back, line = front ++ 32 :: back ∧ back ≠ []

/-- The parts of a line with a space. -/
theorem getlines_eq_cons_cons {line method url : Bytes} {parts : List Bytes}
    (h : getlines line 32 = method :: url :: parts) :
    ∃ back, line = method ++ 32 :: back ∧ 32 ∉ method ∧ back ≠ [] ∧
      url = back.takeWhile (· ≠ 32) := by
  have hne : line ≠ [] := by
    rintro rfl
    rw [getlines_nil] at h
    cases h
  by_cases hmem : (32 : UInt8) ∈ line
  · obtain ⟨front, back, rfl, hfront⟩ := List.eq_append_cons_of_mem hmem
    rw [getlines_append_cons hfront] at h
    obtain ⟨rfl, hrest⟩ := List.cons.inj h
    have hback : back ≠ [] := by
      rintro rfl
      rw [getlines_nil] at hrest
      cases hrest
    have hurl := head?_getlines (b := 32) hback
    rw [hrest, List.head?_cons] at hurl
    exact ⟨back, rfl, hfront, hback, Option.some.inj hurl⟩
  · rw [getlines_of_not_mem hmem hne] at h
    cases h

theorem getlines_two_iff (line : Bytes) :
    (∃ method url parts, getlines line 32 = method :: url :: parts) ↔ HasTwoParts line := by
  constructor
  · rintro ⟨method, url, parts, h⟩
    obtain ⟨back, hline, -, hback, -⟩ := getlines_eq_cons_cons h
    exact ⟨method, back, hline, hback⟩
  · rintro ⟨front, back, rfl, hback⟩
    have hmem : (32 : UInt8) ∈ front ++ 32 :: back := by simp
    obtain ⟨front', back', heq, hfront'⟩ := List.eq_append_cons_of_mem hmem
    have hback' : back' ≠ [] := by
      rintro rfl
      -- the first space would be the last byte, but another one comes before `back`
      have hdrop := congrArg List.dropLast heq
      rw [List.dropLast_concat, List.dropLast_append_of_ne_nil (List.cons_ne_nil _ _),
        List.dropLast_cons_of_ne_nil hback] at hdrop
      apply hfront'
      rw [← hdrop]
      simp
    rw [heq, getlines_append_cons hfront']
    obtain ⟨url, parts, hrest⟩ := List.exists_cons_of_ne_nil (getlines_ne_nil (b := 32) hback')
    exact ⟨front', url, parts, by rw [hrest]⟩

/-- A method and the beginning of a url can be seen at the front of the line. -/
theorem begins_iff {line method url target pattern : Bytes} {parts : List Bytes}
    (h : getlines line 32 = method :: url :: parts) (htarget : 32 ∉ target)
    (hpattern : 32 ∉ pattern) :
    method = target ∧ pattern <+: url ↔ target ++ 32 :: pattern <+: line := by
  obtain ⟨back, rfl, hmethod, -, rfl⟩ := getlines_eq_cons_cons h
  constructor
  · rintro ⟨rfl, hbegins⟩
    have hback := hbegins.trans (List.takeWhile_prefix _)
    exact (List.prefix_append_right_inj _).mpr (List.cons_prefix_cons.mpr ⟨rfl, hback⟩)
  · rintro ⟨more, hline⟩
    rw [List.append_assoc, List.cons_append] at hline
    have hfront := congrArg (List.takeWhile fun c ↦ decide (c ≠ 32)) hline
    rw [takeWhile_ne_append_cons htarget, takeWhile_ne_append_cons hmethod] at hfront
    subst hfront
    obtain rfl : pattern ++ more = back := by simpa using hline
    refine ⟨rfl, ?_⟩
    rw [takeWhile_ne_append hpattern]
    exact List.prefix_append _ _

/-! ## Header entries -/

/-- The entry has no colon, or something behind its first one. -/
def LongEnough (entry : Bytes) : Prop := ∀ front, 58 ∉ front → entry ≠ front ++ [58]

theorem addHeader_isOk_iff (headers : StringMap) (entry : Bytes) :
    (∃ headers', addHeader headers entry = .ok headers') ↔ LongEnough entry := by
  by_cases hmem : (58 : UInt8) ∈ entry
  · obtain ⟨front, back, rfl, hfront⟩ := List.eq_append_cons_of_mem hmem
    have hpos : find? [colon] (front ++ 58 :: back) = some front.length :=
      find?_singleton_append hfront back
    simp only [addHeader, hpos, substrFrom]
    cases back with
    | nil =>
      have hshort : (front ++ [58]).length < front.length + 2 := by simp
      rw [if_pos hshort]
      refine iff_of_false ?_ fun hlong ↦ hlong front hfront rfl
      rintro ⟨headers', h⟩
      cases h
    | cons b back =>
      have hlong : ¬(front ++ 58 :: b :: back).length < front.length + 2 := by
        rw [List.length_append, List.length_cons, List.length_cons]
        omega
      rw [if_neg hlong]
      refine iff_of_true ⟨_, rfl⟩ fun front' hfront' heq ↦ ?_
      have hpos' : find? [colon] (front' ++ [58]) = some front'.length :=
        find?_singleton_append hfront' []
      rw [← heq, hpos] at hpos'
      have hlengths := congrArg List.length heq
      rw [List.length_append, List.length_append, Option.some.inj hpos'] at hlengths
      simp at hlengths
  · have hpos : find? [colon] entry = none := find?_singleton_of_not_mem hmem
    simp only [addHeader, hpos]
    refine iff_of_true ⟨_, rfl⟩ fun front _ heq ↦ hmem ?_
    rw [heq]
    simp

theorem foldlM_addHeader_isOk_iff (headers : StringMap) (entries : List Bytes) :
    (∃ headers', entries.foldlM addHeader headers = .ok headers') ↔
      ∀ entry ∈ entries, LongEnough entry := by
  induction entries generalizing headers with
  | nil => exact iff_of_true ⟨headers, rfl⟩ fun entry h ↦ absurd h List.not_mem_nil
  | cons entry entries ih =>
    rw [List.forall_mem_cons, ← addHeader_isOk_iff headers entry]
    simp only [List.foldlM_cons, bind, Except.bind]
    cases hentry : addHeader headers entry with
    | error e => simp
    | ok headers' => simp [ih headers']

/-! ## Parsing and dispatch -/

/-- The request line of a raw request, and what the header loop reads. -/
def requestLine (rawRequest : Bytes) : Bytes := rawRequest.takeWhile (· ≠ 10)

def entriesOf (rawRequest : Bytes) : List Bytes :=
  headerEntries [] ((rawRequest.dropWhile (· ≠ 10)).drop 1)

theorem parseRequest_isOk_iff (currentDir rawRequest : Bytes) :
    (∃ request, parseRequest currentDir rawRequest = .ok request) ↔
      HasTwoParts (requestLine rawRequest) ∧ ∀ entry ∈ entriesOf rawRequest, LongEnough entry := by
  rw [← getlines_two_iff, entriesOf, ← foldlM_addHeader_isOk_iff ∅, requestLine]
  unfold parseRequest
  dsimp only
  split
  · next method url parts hparts =>
    rw [and_iff_right ⟨method, url, parts, hparts⟩]
    cases List.foldlM addHeader ∅ (headerEntries [] ((rawRequest.dropWhile (· ≠ 10)).drop 1)) with
    | error e => simp
    | ok headers => simp
  · next hparts =>
    refine iff_of_false ?_ ?_
    · rintro ⟨request, h⟩
      cases h
    · rintro ⟨⟨method, url, parts, h⟩, -⟩
      exact hparts method url parts h

/-- The parts of the request line that `parse_request` returns. -/
def methodOf (rawRequest : Bytes) : Bytes := (requestLine rawRequest).takeWhile (· ≠ 32)

def urlOf (rawRequest : Bytes) : Bytes :=
  (((requestLine rawRequest).dropWhile (· ≠ 32)).drop 1).takeWhile (· ≠ 32)

/-- The function that handles the request returns: a response, or what a mail or storage handler
answers. -/
inductive Returns : KVJob Answered → Prop
  | response (fe : Server) (response : Response) : Returns (answer fe response)
  | handler (fe : Server) (handler : Handler) (user rawRequest url : Bytes) :
      Returns (handled fe (handler.job user rawRequest url))

/-- Parsing and dispatch end in a `return` with a response. -/
def Answers (disk : Disk) (currentDir drawn : Bytes) (fe : Server) (rawRequest : Bytes) : Prop :=
  Returns (handleRequest disk currentDir drawn fe rawRequest)

theorem parseRequest_parts {currentDir rawRequest : Bytes} {request : Request}
    (h : parseRequest currentDir rawRequest = .ok request) :
    ∃ parts, getlines (requestLine rawRequest) 32 = request.method :: request.url :: parts := by
  unfold parseRequest at h
  dsimp only at h
  split at h
  · next method url parts hparts =>
    split at h
    · cases h
      exact ⟨parts, hparts⟩
    · cases h
  · cases h

theorem parseRequest_values {currentDir rawRequest : Bytes} {request : Request}
    (h : parseRequest currentDir rawRequest = .ok request) :
    request.method = methodOf rawRequest ∧ request.url = urlOf rawRequest ∧
      request.workingDir = currentDir := by
  obtain ⟨parts, hparts⟩ := parseRequest_parts h
  obtain ⟨back, hline, hmethod, -, hurl⟩ := getlines_eq_cons_cons hparts
  refine ⟨?_, ?_, ?_⟩
  · rw [methodOf, hline, takeWhile_ne_append_cons hmethod]
  · rw [urlOf, hline, dropWhile_ne_append_cons hmethod, hurl]
    rfl
  · unfold parseRequest at h
    dsimp only at h
    split at h
    · split at h
      · cases h
        rfl
      · cases h
    · cases h

/-! ### What can be returned -/

/-- No handler fails before its first call. -/
theorem not_returns_raise (e : Thrown) : ¬Returns (once (.raise e)) := by
  intro h
  generalize hjob : (once (.raise e) : KVJob Answered) = job at h
  have hraise : job 0 = .raise e := by rw [← hjob]; rfl
  cases h with
  | response fe response => cases hraise
  | handler fe handler user rawRequest url => cases handler with
    | getWebmail box => cases hraise
    | viewFile => cases hraise
    | downloadFile => cases hraise
    | postWebmail => cases hraise
    | deleteWebmail => cases hraise
    | uploadFile => cases hraise
    | createFolder => cases hraise
    | moveFile => cases hraise
    | moveFolder => cases hraise
    | rename => cases hraise
    | deleteFolder => cases hraise
    | deleteFile => cases hraise

/-- A function that returns, or fails before any call. -/
def Decided (job : KVJob Answered) (answers : Prop) : Prop :=
  answers ∧ Returns job ∨ ¬answers ∧ ∃ e, job = once (.raise e)

theorem Decided.iff {job : KVJob Answered} {answers : Prop} (h : Decided job answers) :
    Returns job ↔ answers := by
  rcases h with ⟨hanswers, hreturns⟩ | ⟨hnot, e, rfl⟩
  · exact iff_of_true hreturns hanswers
  · exact iff_of_false (not_returns_raise e) hnot

theorem Decided.congr {job : KVJob Answered} {answers answers' : Prop} (h : Decided job answers)
    (hiff : answers ↔ answers') : Decided job answers' := by
  rwa [← propext hiff]

theorem decided_answer (fe : Server) (response : Response) {answers : Prop} (h : answers) :
    Decided (answer fe response) answers := .inl ⟨h, .response fe response⟩

theorem decided_handled (fe : Server) (handler : Handler) (user rawRequest url : Bytes) {answers : Prop}
    (h : answers) : Decided (handled fe (handler.job user rawRequest url)) answers :=
  .inl ⟨h, .handler fe handler user rawRequest url⟩

theorem decided_ite {c : Prop} [Decidable c] {p q : KVJob Answered} {answers : Prop}
    (hp : c → Decided p answers) (hq : ¬c → Decided q answers) :
    Decided (if c then p else q) answers := by
  split
  · next h => exact hp h
  · next h => exact hq h

/-- An image that is not there has no size. -/
theorem decided_image (disk : Disk) (fe : Server) (location : Bytes) :
    Decided (once do
      let response ← ofStd (serveImage disk location)
      return (fe, response)) (disk location).isSome := by
  unfold serveImage
  cases disk location with
  | some content => exact .inl ⟨rfl, .response fe _⟩
  | none => exact .inr ⟨Bool.false_ne_true, .std .lengthError, rfl⟩

/-- A GET request fails only where it asks for an image that is not there. -/
theorem decided_get (disk : Disk) (fe : Server) (url workingDir rawRequest : Bytes)
    (headers : StringMap) :
    Decided (handleGetRequests disk fe url workingDir rawRequest headers)
      (contains url (lit "/images") = true → (disk (workingDir ++ lit "/webpages" ++ url)).isSome) := by
  unfold handleGetRequests
  apply decided_ite
  · rintro ⟨hshort, -⟩
    refine decided_answer fe _ fun himages ↦ ?_
    obtain ⟨p, hp⟩ := Option.isSome_iff_exists.mp himages
    have hle := add_length_le_of_find? hp
    have hlength : (lit "/images").length = 7 := rfl
    omega
  intro _
  apply decided_ite
  · intro himages
    exact (decided_image disk fe _).congr (by rw [forall_prop_of_true himages])
  intro hother
  have hanswers : contains url (lit "/images") = true →
      (disk (workingDir ++ lit "/webpages" ++ url)).isSome = true := fun h ↦ absurd h hother
  apply decided_ite
  · exact fun _ ↦ decided_ite (fun _ ↦ decided_answer fe _ hanswers) fun _ ↦
      decided_answer fe _ hanswers
  intro _
  apply decided_ite (fun _ ↦ decided_answer fe _ hanswers)
  intro _
  apply decided_ite (fun _ ↦ decided_answer fe _ hanswers)
  intro _
  apply decided_ite (fun _ ↦ decided_answer _ _ hanswers)
  intro _
  apply decided_ite (fun _ ↦ decided_answer fe _ hanswers)
  intro _
  apply decided_ite (fun _ ↦ decided_answer fe _ hanswers)
  intro _
  apply decided_ite
  · exact fun _ ↦ decided_ite (fun _ ↦ decided_answer fe _ hanswers) fun _ ↦
      decided_answer fe _ hanswers
  intro _
  apply decided_ite (fun _ ↦ decided_answer _ _ hanswers)
  intro _
  apply decided_ite (fun _ ↦ decided_answer fe _ hanswers)
  intro _
  apply decided_ite (fun _ ↦ decided_answer fe _ hanswers)
  intro _
  apply decided_ite (fun _ ↦ decided_handled fe _ _ _ _ hanswers)
  intro _
  apply decided_ite (fun _ ↦ decided_handled fe _ _ _ _ hanswers)
  intro _
  apply decided_ite (fun _ ↦ decided_handled fe _ _ _ _ hanswers)
  intro _
  apply decided_ite (fun _ ↦ decided_handled fe _ _ _ _ hanswers)
  intro _
  apply decided_ite (fun _ ↦ decided_handled fe _ _ _ _ hanswers)
  exact fun _ ↦ decided_answer fe _ hanswers

/-- A POST request does not fail in dispatch; the accounts are never reached. -/
theorem returns_post (drawn : Bytes) (fe : Server) (url rawRequest : Bytes) (headers : StringMap) :
    Returns (handlePostRequests drawn fe url rawRequest headers) := by
  unfold handlePostRequests
  cases htarget : postTarget fe.sessions url headers with
  | unavailable => exact .response fe _
  | unauthorized => exact .response fe _
  | handler handler => exact .handler fe handler _ _ _
  | notFound => exact .response fe _
  | accounts =>
    have hbegins : lit "/shutdown" <+: url := by
      by_contra hnot
      rw [postTarget_eq_unavailable_iff.mpr hnot] at htarget
      cases htarget
    rw [postTarget_of_shutdown hbegins] at htarget
    split at htarget
    · cases htarget
    · cases htarget

/-- A frontend that is shut down returns on two urls. -/
theorem decided_shutdown (fe : Server) (method url : Bytes) :
    Decided (handleShutdownRequests fe method url)
      (method = lit "GET" ∧ lit "/status" <+: url ∨ method = lit "GET" ∧ lit "/restart" <+: url) := by
  unfold handleShutdownRequests
  rw [← and_or_left, ← find?_eq_zero_iff, ← find?_eq_zero_iff]
  split
  · next hget =>
    split
    · next hstatus => exact decided_answer fe _ ⟨hget, .inl hstatus⟩
    · next hstatus =>
      split
      · next hrestart => exact decided_answer _ _ ⟨hget, .inr hrestart⟩
      · next hrestart => exact .inr ⟨fun h ↦ h.2.elim hstatus hrestart, .undefined, rfl⟩
  · next hget => exact .inr ⟨fun h ↦ hget h.1, .undefined, rfl⟩

/-- A beginning without a newline is one of the request line. -/
theorem begins_requestLine_iff {pattern rawRequest : Bytes} (h : 10 ∉ pattern) :
    pattern <+: requestLine rawRequest ↔ pattern <+: rawRequest := by
  constructor
  · intro hbegins
    exact hbegins.trans (List.takeWhile_prefix _)
  · rintro ⟨more, rfl⟩
    rw [requestLine, takeWhile_ne_append h]
    exact List.prefix_append _ _

/-- What a parsed request has to meet. -/
theorem decided_parsed (disk : Disk) {currentDir rawRequest : Bytes} (drawn : Bytes) (fe : Server)
    {request : Request} (h : parseRequest currentDir rawRequest = .ok request) :
    Decided (handleRequest disk currentDir drawn fe rawRequest)
      ((fe.serving = false →
        lit "GET /status" <+: rawRequest ∨ lit "GET /restart" <+: rawRequest) ∧
      (fe.serving = true → methodOf rawRequest = lit "GET" →
        contains (urlOf rawRequest) (lit "/images") = true →
        (disk (currentDir ++ lit "/webpages" ++ urlOf rawRequest)).isSome)) := by
  obtain ⟨parts, hparts⟩ := parseRequest_parts h
  obtain ⟨hmethod, hurl, hdir⟩ := parseRequest_values h
  have hstatus : lit "GET /status" = lit "GET" ++ 32 :: lit "/status" := rfl
  have hrestart : lit "GET /restart" = lit "GET" ++ 32 :: lit "/restart" := rfl
  unfold handleRequest
  rw [h]
  dsimp only
  cases hserving : fe.serving with
  | false =>
    rw [if_pos Bool.false_ne_true]
    refine (decided_shutdown fe _ _).congr ?_
    rw [begins_iff hparts (by decide) (by decide), begins_iff hparts (by decide) (by decide),
      ← hstatus, ← hrestart, begins_requestLine_iff (by decide), begins_requestLine_iff (by decide)]
    simp
  | true =>
    rw [if_neg (not_not_intro rfl)]
    apply decided_ite
    · intro hget
      refine (decided_get disk fe _ _ _ _).congr ?_
      rw [hurl, hdir, ← hmethod]
      simp [hget]
    intro hother
    have hanswers : (true = false →
          lit "GET /status" <+: rawRequest ∨ lit "GET /restart" <+: rawRequest) ∧
        (true = true → methodOf rawRequest = lit "GET" →
          contains (urlOf rawRequest) (lit "/images") = true →
          (disk (currentDir ++ lit "/webpages" ++ urlOf rawRequest)).isSome = true) := by
      refine ⟨fun h ↦ absurd h (by decide), fun _ hget ↦ ?_⟩
      exact absurd (hmethod.trans hget) hother
    apply decided_ite
    · exact fun _ ↦ .inl ⟨hanswers, returns_post drawn fe _ _ _⟩
    intro _
    exact decided_ite (fun _ ↦ decided_answer fe _ hanswers) fun _ ↦ decided_answer fe _ hanswers

/-- Every other request ends the thread of its client before any call of the store. -/
theorem decided_request (disk : Disk) (currentDir drawn : Bytes) (fe : Server) (rawRequest : Bytes) :
    Decided (handleRequest disk currentDir drawn fe rawRequest)
      (HasTwoParts (requestLine rawRequest) ∧
        (∀ entry ∈ entriesOf rawRequest, LongEnough entry) ∧
        (fe.serving = false →
          lit "GET /status" <+: rawRequest ∨ lit "GET /restart" <+: rawRequest) ∧
        (fe.serving = true → methodOf rawRequest = lit "GET" →
          contains (urlOf rawRequest) (lit "/images") = true →
          (disk (currentDir ++ lit "/webpages" ++ urlOf rawRequest)).isSome)) := by
  have hparsed := parseRequest_isOk_iff currentDir rawRequest
  cases hparse : parseRequest currentDir rawRequest with
  | ok request =>
    obtain ⟨hparts, hentries⟩ := hparsed.mp ⟨request, hparse⟩
    refine (decided_parsed disk drawn fe hparse).congr ?_
    rw [and_iff_right hparts, and_iff_right hentries]
  | error e =>
    right
    constructor
    · rintro ⟨hparts, hentries, -⟩
      obtain ⟨request, hrequest⟩ := hparsed.mpr ⟨hparts, hentries⟩
      cases hparse.symm.trans hrequest
    · refine ⟨e, ?_⟩
      unfold handleRequest
      rw [hparse]

/-- Exactly these requests are answered. -/
theorem answers_iff (disk : Disk) (currentDir drawn : Bytes) (fe : Server) (rawRequest : Bytes) :
    Answers disk currentDir drawn fe rawRequest ↔
      HasTwoParts (requestLine rawRequest) ∧
        (∀ entry ∈ entriesOf rawRequest, LongEnough entry) ∧
        (fe.serving = false →
          lit "GET /status" <+: rawRequest ∨ lit "GET /restart" <+: rawRequest) ∧
        (fe.serving = true → methodOf rawRequest = lit "GET" →
          contains (urlOf rawRequest) (lit "/images") = true →
          (disk (currentDir ++ lit "/webpages" ++ urlOf rawRequest)).isSome) :=
  (decided_request disk currentDir drawn fe rawRequest).iff

/-- A request line without a space. -/
def bareRequest : Bytes := lit "GET\r\n\r\n"

/-- Nothing follows the colon. -/
def emptyField : Bytes := lit "GET / HTTP/1.1\r\nX:\r\n\r\n"

/-- Well formed, but sent to a frontend that is shut down. -/
def pageRequest : Bytes := lit "GET / HTTP/1.1\r\n\r\n"

/-- No such image is there. -/
def imageRequest : Bytes := lit "GET /images/none.png HTTP/1.1\r\n\r\n"

/-- None of them is answered. -/
theorem requests_without_answer :
    ¬Answers (fun _ ↦ none) [] [] {} bareRequest ∧ ¬Answers (fun _ ↦ none) [] [] {} emptyField ∧
      ¬Answers (fun _ ↦ none) [] [] { serving := false } pageRequest ∧
      ¬Answers (fun _ ↦ none) [] [] {} imageRequest := by
  have hbare : handleRequest (fun _ ↦ none) [] [] {} bareRequest = once (.raise .undefined) := rfl
  have hempty : handleRequest (fun _ ↦ none) [] [] {} emptyField =
      once (.raise (.std .outOfRange)) := rfl
  have hpage : handleRequest (fun _ ↦ none) [] [] { serving := false } pageRequest =
      once (.raise .undefined) := rfl
  have himage : handleRequest (fun _ ↦ none) [] [] {} imageRequest =
      once (.raise (.std .lengthError)) := rfl
  unfold Answers
  rw [hbare, hempty, hpage, himage]
  exact ⟨not_returns_raise _, not_returns_raise _, not_returns_raise _, not_returns_raise _⟩

end PennCloud.Frontend.RequestParsing
