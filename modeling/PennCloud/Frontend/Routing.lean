import PennCloud.Frontend.Accounts
import PennCloud.Frontend.Mail
import PennCloud.Frontend.Storage

/-!
# Routes

`handle_request` and the two functions it hands a request to. Each of them is a chain of searches in
the url. A GET route is taken where its name occurs in the url; the POST chain uses the
position of the name as its condition, so that a route is passed over only by the urls that begin
with its name.
-/

open PennCloud.Library.CppString PennCloud.Library.TextSearch PennCloud.Library.Programs
open PennCloud.KV.TabletCells PennCloud.Frontend.KVClient PennCloud.Frontend.HttpText
open PennCloud.Frontend.Accounts PennCloud.Frontend.Mail PennCloud.Frontend.Storage

namespace PennCloud.Frontend.Routing

/-- What a frontend keeps between requests. -/
structure Server where
  sessions : Sessions := ∅
  serving : Bool := true

/-- The mail and storage handlers, for the user of a session. -/
inductive Handler
  | getWebmail (box : Bytes)
  | viewFile
  | downloadFile
  | postWebmail
  | deleteWebmail
  | uploadFile
  | createFolder
  | moveFile
  | moveFolder
  | rename
  | deleteFolder
  | deleteFile
  deriving DecidableEq

def Handler.job (user rawRequest url : Bytes) : Handler → KVJob Response
  | getWebmail box => handleGetWebmail user box
  | viewFile => handleViewFile user
  | downloadFile => handleDownloadFile user url
  | postWebmail => handlePostWebmail user rawRequest
  | deleteWebmail => handleDeleteWebmail user rawRequest
  | uploadFile => handleUploadFile user rawRequest
  | createFolder => handleCreateFolder user rawRequest
  | moveFile => handleMoveFile user rawRequest
  | moveFolder => handleMoveFolder user rawRequest
  | rename => handleRename user rawRequest
  | deleteFolder => handleDeleteFolder user rawRequest
  | deleteFile => handleDeleteFile user rawRequest

/-- An answer and the frontend after it. -/
abbrev Answered := Server × Response

def answer (fe : Server) (response : Response) : KVJob Answered := once (.ret (fe, response))

/-- Run a handler; it does not change the frontend. -/
def handled (fe : Server) (job : KVJob Response) : KVJob Answered := fun n ↦ do
  match ← job n with
  | .again m => return .again m
  | .done response => return .done (fe, response)

def unavailable : Response :=
  generateStandardResponse (lit "503 Service Unavailable") (lit "503 Service Unavailable\n")

def unauthorized : Response := corsOk (lit "401 Unauthorized")

/-! ## GET -/

/-- A page under `webpages`. -/
def webpage (disk : Disk) (workingDir name : Bytes) : Response :=
  serveWebpage disk (workingDir ++ lit "/webpages/" ++ name ++ lit ".html")

def handleGetRequests (disk : Disk) (fe : Server) (url workingDir rawRequest : Bytes)
    (headers : StringMap) : KVJob Answered :=
  let sid := getCookieFromHeader headers
  let live := sessionCheck fe.sessions sid
  let page (name : Bytes) := answer fe (webpage disk workingDir name)
  let run (handler : Handler) :=
    handled fe (handler.job (usernameOf fe.sessions sid) rawRequest url)
  if url.length ≤ 1 ∧ (url = lit "/" ∨ url = []) then
    page (lit "homepage")
  else if contains url (lit "/images") then
    once do
      let response ← ofStd (serveImage disk (workingDir ++ lit "/webpages" ++ url))
      return (fe, response)
  else if contains url (lit "/hello") then
    if live then answer fe (ok (usernameOf fe.sessions sid))
    else answer fe (ok (lit "401 Unauthorized"))
  else if contains url (lit "/admin") then
    answer fe (ok (lit "200 OK"))
  else if contains url (lit "/login") then
    page (lit "login")
  else if contains url (lit "/logout") then
    let sessions := if live then deleteSession fe.sessions sid else fe.sessions
    answer { fe with sessions := sessions } (webpage disk workingDir (lit "homepage"))
  else if contains url (lit "/register") then
    page (lit "register")
  else if contains url (lit "/reset_password") then
    page (lit "reset_password")
  else if contains url (lit "/webmail") || contains url (lit "/storage") then
    if ¬live then page (lit "login")
    else page (if contains url (lit "/webmail") then lit "webmail" else lit "storage")
  else if contains url (lit "/shutdown") then
    answer { fe with serving := false } unavailable
  else if contains url (lit "/status") then
    answer fe (ok (lit "OK STATUS\n"))
  else if ¬live then
    answer fe unauthorized
  else if contains url (lit "/inbox") then
    run (.getWebmail (lit "inbox"))
  else if contains url (lit "/deleted") then
    run (.getWebmail (lit "deleted"))
  else if contains url (lit "/sent") then
    run (.getWebmail (lit "sent"))
  else if contains url (lit "/files") then
    run .viewFile
  else if contains url (lit "/downloadfile") then
    run .downloadFile
  else
    answer fe (generateStandardResponse (lit "404 Not Found") (lit "404 GET Not Found"))

/-! ## POST -/

/-- The routes of the POST chain in its order. -/
def postRoutes : List (Bytes × Handler) :=
  [(lit "/emails", .postWebmail),
    (lit "/deleteemails", .deleteWebmail),
    (lit "/uploadfile", .uploadFile),
    (lit "/createfolder", .createFolder),
    (lit "/movefile", .moveFile),
    (lit "/movefolder", .moveFolder),
    (lit "/rename", .rename),
    (lit "/deletefolder", .deleteFolder),
    (lit "/deletefile", .deleteFile)]

/-- Where the POST chain sends a request. -/
inductive PostTarget
  | unavailable
  | accounts
  | unauthorized
  | handler (handler : Handler)
  | notFound
  deriving DecidableEq

def accountUrls : List Bytes := [lit "/login", lit "/register", lit "/reset_password"]

def postTarget (sessions : Sessions) (url : Bytes) (headers : StringMap) : PostTarget :=
  if findTest url (lit "/shutdown") then
    .unavailable
  else if url ∈ accountUrls then
    .accounts
  else if ¬sessionCheck sessions (getCookieFromHeader headers) then
    .unauthorized
  else
    match postRoutes.find? fun route ↦ findTest url route.1 with
    | some route => .handler route.2
    | none => .notFound

def handlePostRequests (drawn : Bytes) (fe : Server) (url rawRequest : Bytes)
    (headers : StringMap) : KVJob Answered :=
  match postTarget fe.sessions url headers with
  | .unavailable => answer fe unavailable
  | .accounts =>
    once do
      let (sessions, response) ← handlePostAccounts drawn fe.sessions rawRequest url
      return ({ fe with sessions := sessions }, response)
  | .unauthorized => answer fe unauthorized
  | .handler handler =>
    let sid := getCookieFromHeader headers
    handled fe (handler.job (usernameOf fe.sessions sid) rawRequest url)
  | .notFound =>
    answer fe (generateStandardResponse (lit "404 Not Found") (lit "404 POST Not Found"))

/-! ## All requests -/

/-- A frontend that is shut down still answers `/status` and `/restart`; on every other request the
function ends without a `return`. -/
def handleShutdownRequests (fe : Server) (method url : Bytes) : KVJob Answered :=
  if method = lit "GET" then
    if find? (lit "/status") url = some 0 then
      answer fe (ok (lit "503 Service Unavailable\n"))
    else if find? (lit "/restart") url = some 0 then
      answer { fe with serving := true }
        (generateStandardResponse (lit "503 Service Unavailable") (lit "Successfully restart server"))
    else
      once (.raise .undefined)
  else
    once (.raise .undefined)

def handleRequest (disk : Disk) (currentDir drawn : Bytes) (fe : Server) (rawRequest : Bytes) :
    KVJob Answered :=
  match parseRequest currentDir rawRequest with
  | .error e => once (.raise e)
  | .ok request =>
    if ¬fe.serving then
      handleShutdownRequests fe request.method request.url
    else if request.method = lit "GET" then
      handleGetRequests disk fe request.url request.workingDir rawRequest request.headers
    else if request.method = lit "POST" then
      handlePostRequests drawn fe request.url rawRequest request.headers
    else if request.method = lit "DELE" then
      answer fe (generateStandardResponse (lit "404 Not Found") (lit "404 DELETE Not Found"))
    else
      answer fe (generateStandardResponse (lit "404 Not Found") (lit "404 Not Found"))

/-! ## The POST chain -/

/-- The request is sent where its url says. -/
structure RoutedRight (sessions : Sessions) (url : Bytes) (headers : StringMap)
    (target : PostTarget) : Prop where
  accounts : url ∈ accountUrls → target = .accounts
  handlers : url ∉ accountUrls → sessionCheck sessions (getCookieFromHeader headers) = true →
    ∀ route ∈ postRoutes, route.1 <+: url → target = .handler route.2
  notFound : url ∉ accountUrls → sessionCheck sessions (getCookieFromHeader headers) = true →
    (∀ route ∈ postRoutes, ¬route.1 <+: url) →
      target = .notFound ∨ target = .unavailable ∧ lit "/shutdown" <+: url
  unavailable : target = .unavailable → lit "/shutdown" <+: url

/-- Everything but a url that begins with `/shutdown` is unavailable. -/
theorem postTarget_eq_unavailable_iff {sessions : Sessions} {url : Bytes} {headers : StringMap} :
    postTarget sessions url headers = .unavailable ↔ ¬lit "/shutdown" <+: url := by
  unfold postTarget
  cases htest : findTest url (lit "/shutdown") with
  | true =>
    refine iff_of_true (if_pos rfl) fun hbegins ↦ ?_
    rw [findTest_eq_false_iff.mpr hbegins] at htest
    exact Bool.false_ne_true htest
  | false =>
    have hbegins := findTest_eq_false_iff.mp htest
    refine iff_of_false ?_ (not_not_intro hbegins)
    rw [if_neg Bool.false_ne_true]
    split
    · exact nofun
    · split
      · exact nofun
      · split
        · exact nofun
        · exact nofun

/-- No route begins like `/shutdown`. -/
theorem not_route_of_shutdown {url : Bytes} (h : lit "/shutdown" <+: url) :
    url ∉ accountUrls ∧ ∀ route ∈ postRoutes, ¬route.1 <+: url := by
  have hroutes : ∀ name ∈ accountUrls ++ postRoutes.map Prod.fst,
      ¬name <+: lit "/shutdown" ∧ ¬lit "/shutdown" <+: name := by decide
  have hnot : ∀ name ∈ accountUrls ++ postRoutes.map Prod.fst, ¬name <+: url := by
    intro name hname hbegins
    rcases List.prefix_or_prefix_of_prefix hbegins h with hle | hle
    · exact (hroutes name hname).1 hle
    · exact (hroutes name hname).2 hle
  constructor
  · intro hmem
    exact hnot url (List.mem_append_left _ hmem) List.prefix_rfl
  · intro route hroute
    exact hnot route.1 (List.mem_append_right _ (List.mem_map_of_mem hroute))

/-- With a session the first handler of the chain takes what gets past the first test. -/
theorem postTarget_of_shutdown {sessions : Sessions} {url : Bytes} {headers : StringMap}
    (h : lit "/shutdown" <+: url) :
    postTarget sessions url headers =
      if sessionCheck sessions (getCookieFromHeader headers) then .handler .postWebmail
      else .unauthorized := by
  obtain ⟨haccounts, hroutes⟩ := not_route_of_shutdown h
  have hemails : findTest url (lit "/emails") = true := by
    rw [← Bool.not_eq_false, findTest_eq_false_iff]
    exact hroutes (lit "/emails", .postWebmail) List.mem_cons_self
  unfold postTarget
  rw [findTest_eq_false_iff.mpr h, if_neg Bool.false_ne_true, if_neg haccounts]
  cases sessionCheck sessions (getCookieFromHeader headers) with
  | true =>
    have hfind : postRoutes.find? (fun route ↦ findTest url route.1) =
        some (lit "/emails", .postWebmail) := List.find?_cons_of_pos hemails
    rw [if_neg (by simp), if_pos rfl, hfind]
  | false => rfl

/-- The chain is right for the urls that begin with `/shutdown`, and only without a session. -/
theorem routedRight_iff (sessions : Sessions) (url : Bytes) (headers : StringMap) :
    RoutedRight sessions url headers (postTarget sessions url headers) ↔
      lit "/shutdown" <+: url ∧ sessionCheck sessions (getCookieFromHeader headers) = false := by
  constructor
  · intro hright
    have hshutdown : lit "/shutdown" <+: url := by
      by_contra hnot
      exact hnot (hright.unavailable (postTarget_eq_unavailable_iff.mpr hnot))
    obtain ⟨haccounts, hroutes⟩ := not_route_of_shutdown hshutdown
    refine ⟨hshutdown, ?_⟩
    rw [← Bool.not_eq_true]
    intro hlive
    have hfound := hright.notFound haccounts hlive hroutes
    rw [postTarget_of_shutdown hshutdown, if_pos hlive] at hfound
    rcases hfound with hfound | ⟨hfound, _⟩
    · exact PostTarget.noConfusion hfound
    · exact PostTarget.noConfusion hfound
  · rintro ⟨hshutdown, hlive⟩
    obtain ⟨haccounts, hroutes⟩ := not_route_of_shutdown hshutdown
    have hnotLive : sessionCheck sessions (getCookieFromHeader headers) ≠ true := by
      rw [hlive]
      exact Bool.false_ne_true
    exact {
      accounts := fun h ↦ absurd h haccounts
      handlers := fun _ h ↦ absurd h hnotLive
      notFound := fun _ h ↦ absurd h hnotLive
      unavailable := fun _ ↦ hshutdown }

/-- A login is answered 503. -/
theorem login_unavailable :
    handlePostRequests [] {} (lit "/login") [] ∅ = answer {} unavailable ∧
      ¬RoutedRight ∅ (lit "/login") ∅ (postTarget ∅ (lit "/login") ∅) := by
  have htarget : postTarget ∅ (lit "/login") ∅ = .unavailable := by decide
  constructor
  · rw [handlePostRequests, htarget]
  · intro hright
    exact PostTarget.noConfusion ((hright.accounts (by decide)).symm.trans htarget)

end PennCloud.Frontend.Routing
