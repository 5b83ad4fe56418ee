import PennCloud.Frontend.HttpText
import PennCloud.Library.Runs

/-!
# Sessions and accounts

The session manager, and the handler of `/login`, `/register` and `/reset_password`. A password is
the cell `password` of the user's row. `/reset_password` compares and sets it, but
`/register` stores it whatever is there, and a comparison with the empty password creates it.
-/

open PennCloud.Library.CppString PennCloud.Library.TextSearch PennCloud.Library.Programs
open PennCloud.Library.Runs PennCloud.KV.TabletCells
open PennCloud.Frontend.KVClient PennCloud.Frontend.HttpText

namespace PennCloud.Frontend.Accounts

/-! ## Sessions -/

abbrev Sessions := AList fun _ : Bytes ↦ StringMap

/-- The identifier is the one that `generate_session_id` draws. -/
def createSession (sessions : Sessions) (sessionId username : Bytes) : Sessions :=
  sessions.insert sessionId ((∅ : StringMap).insert (lit "username") username)

def getSession (sessions : Sessions) (sessionId : Bytes) : StringMap :=
  (sessions.lookup sessionId).getD ∅

def deleteSession (sessions : Sessions) (sessionId : Bytes) : Sessions := sessions.erase sessionId

def getCookieValue (sessionId : Bytes) : Bytes :=
  lit "session_id=" ++ sessionId ++ lit "; HttpOnly; Secure"

def sessionCheck (sessions : Sessions) (sessionId : Bytes) : Bool :=
  (sessions.lookup sessionId).isSome

/-- `get_session(sid)["username"]`. -/
def usernameOf (sessions : Sessions) (sid : Bytes) : Bytes :=
  (getSession sessions sid).at (lit "username")

/-! ## The handler -/

/-- The header lines end at an empty line; the blank line of a request holds a carriage return, so
the lines of the body are read too. -/
def accountHeaders (rawRequest : Bytes) : Except StdException StringMap :=
  ((getlines rawRequest 10).takeWhile (· ≠ [])).foldlM addHeader ∅

/-- `params[key] = value` around the first equals sign. -/
def addParam (params : StringMap) (paramPair : Bytes) : StringMap :=
  match find? [61] paramPair with
  | some p => params.insert (paramPair.take p) (paramPair.drop (p + 1))
  | none => params

/-- The parameters of the body, with every ampersand replaced by a line end. -/
def accountParams (rawRequest : Bytes) : StringMap :=
  let requestBody := (parseBody rawRequest).2.map fun b ↦ if b = 38 then 10 else b
  ((getlines requestBody 10).takeWhile (· ≠ [])).foldl addParam ∅

def ok (content : Bytes) : Response := generateStandardResponse (lit "200 OK") content

/-- The answer to a login, with the new session's cookie. -/
def loginResponse (sid : Bytes) : Response where
  status := lit "200 OK"
  headers := (((∅ : StringMap).insert (lit "Content-Type") (lit "text/plain")).insert
    (lit "Content-Length") (decimal (lit "Successful login").length)).insert
    (lit "Set-Cookie") (getCookieValue sid)
  content := lit "Successful login"

/-- The branch `/login`; `drawn` is the identifier that a new session gets. -/
def login (drawn : Bytes) (sessions : Sessions) (username password : Bytes) :
    KVProg (Sessions × Response) :=
  catchKVNotFound
    (do
      let passwordFromKV ← get username (lit "password")
      if passwordFromKV = password then
        return (createSession sessions drawn username, loginResponse drawn)
      else
        return (sessions, ok (lit "Incorrect password")))
    (.ret (sessions, ok (lit "User does not exist")))

/-- The branch `/register`. -/
def register (sessions : Sessions) (username password : Bytes) : KVProg (Sessions × Response) :=
  catchKVError
    (do
      put username (lit "password") password
      return (sessions, ok (lit "Successfully register")))
    (.ret (sessions, ok (lit "Register failed")))

/-- The branch `/reset_password`; a session named by the cookie ends. -/
def resetPassword (sessions : Sessions) (headers : StringMap) (username password newPassword : Bytes) :
    KVProg (Sessions × Response) :=
  catchKVError
    (do
      cput username (lit "password") password newPassword
      let sid := getCookieFromHeader headers
      let sessions := if sessionCheck sessions sid then deleteSession sessions sid else sessions
      return (sessions, ok (lit "Successfully reset the password")))
    (.ret (sessions, ok (lit "Reset password failed\n")))

def handlePostAccounts (drawn : Bytes) (sessions : Sessions) (rawRequest url : Bytes) :
    KVProg (Sessions × Response) := do
  let headers ← ofStd (accountHeaders rawRequest)
  let params := accountParams rawRequest
  let username := params.at (lit "username")
  let password := params.at (lit "password")
  if url = lit "/login" then
    login drawn sessions username password
  else if url = lit "/register" then
    register sessions username password
  else if url = lit "/reset_password" then
    resetPassword sessions headers username password (params.at (lit "new_password"))
  else
    return (sessions, ok [])

end PennCloud.Frontend.Accounts
