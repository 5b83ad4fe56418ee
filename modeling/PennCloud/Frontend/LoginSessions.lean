import PennCloud.Frontend.Passwords
import PennCloud.Frontend.Routing

/-!
# Where sessions come from

The session map changes in three places: a login adds an entry, a reset of the password and a logout
remove the one that the request carries in its cookie. The history of a frontend's account calls
and logouts tells of every session which login added it, and that the password was right.
-/

open PennCloud.Library.Programs PennCloud.Library.Runs PennCloud.KV.TabletCells
open PennCloud.Frontend.KVClient PennCloud.Frontend.HttpText PennCloud.Frontend.Accounts
open PennCloud.Frontend.Passwords PennCloud.Frontend.Routing

namespace PennCloud.Frontend.LoginSessions

/-- A GET request for `/logout`. -/
structure LogoutCall where
  disk : Disk
  workingDir : Bytes
  rawRequest : Bytes
  headers : StringMap

inductive Event
  | account (call : AccountCall)
  | logout (call : LogoutCall)

/-- An event in the history; without a response it ended in an exception. -/
structure Entry where
  event : Event
  store : Store
  before : Sessions
  after : Sessions
  response : Option Response

structure Host where
  store : Store := fun _ ↦ none
  sessions : Sessions := ∅
  past : List Entry := []

/-- The store, the sessions and the response after an event. -/
def handle (store : Store) (sessions : Sessions) : Event → Store × Sessions × Option Response
  | .account call =>
    match (handlePostAccounts call.drawn sessions call.rawRequest call.url).run (execute ()) store with
    | (store, .ok (sessions, response)) => (store, sessions, some response)
    | (store, .error _) => (store, sessions, none)
  | .logout call =>
    match (handleGetRequests call.disk { sessions := sessions } (lit "/logout") call.workingDir
      call.rawRequest call.headers 0).run (execute ()) store with
    | (store, .ok (.done (fe, response))) => (store, fe.sessions, some response)
    | (store, _) => (store, sessions, none)

def Host.step (s : Host) (event : Event) : Host :=
  let (store, sessions, response) := handle s.store s.sessions event
  { store := store
    sessions := sessions
    past := s.past ++ [⟨event, s.store, s.sessions, sessions, response⟩] }

def machine : Machine Host Event where
  step s event := some (s.step event)

/-- The identifier drawn for a login names no session yet. -/
def FreshIds (s : Host) (event : Event) : Prop :=
  ∀ call, event = .account call → call.url = lit "/login" → s.sessions.lookup call.drawn = none

namespace Entry

variable (x : Entry)

/-- A login that is answered as successful. -/
def LogsIn : Prop :=
  ∃ call, x.event = .account call ∧ call.url = lit "/login" ∧
    x.response.map Response.content = some (lit "Successful login")

/-- A login with the password stored for the user adds the session. -/
def Adds (sid : Bytes) (data : StringMap) : Prop :=
  ∃ call, x.event = .account call ∧ call.url = lit "/login" ∧
    data.at (lit "username") = call.username ∧
    passwordOf x.store call.username = some call.password ∧
    x.before.lookup sid = none ∧ x.after.lookup sid = some data

/-- A logout or a successful reset with this session in the cookie. -/
def Carries (sid : Bytes) : Prop :=
  (∃ call, x.event = .logout call ∧ getCookieFromHeader call.headers = sid) ∨
    ∃ call headers, x.event = .account call ∧ call.url = lit "/reset_password" ∧
      x.response.map Response.content = some (lit "Successfully reset the password") ∧
      accountHeaders call.rawRequest = .ok headers ∧ getCookieFromHeader headers = sid

/-- What an event may do to the sessions. -/
structure Lawful : Prop where
  login : x.LogsIn → ∃ sid, x.before.lookup sid = none ∧ (x.after.lookup sid).isSome ∧
    ∀ other ≠ sid, x.after.lookup other = x.before.lookup other
  others : ¬x.LogsIn → ∀ sid data, x.after.lookup sid = some data → x.before.lookup sid = some data
  removed : ∀ sid, (x.before.lookup sid).isSome → x.after.lookup sid = none → x.Carries sid

end Entry

/-! ## One event -/

/-- What an event does to the sessions, and its response. -/
inductive Managed (store : Store) (before : Sessions) : Event → Sessions → Option Response → Prop
  | login (call : AccountCall) (hurl : call.url = lit "/login")
      (hpassword : passwordOf store call.username = some call.password) :
      Managed store before (.account call) (createSession before call.drawn call.username)
        (some (loginResponse call.drawn))
  | kept (call : AccountCall) (response : Option Response)
      (hcontent : response.map Response.content ≠ some (lit "Successful login")) :
      Managed store before (.account call) before response
  | reset (call : AccountCall) (headers : StringMap) (hurl : call.url = lit "/reset_password")
      (hheaders : accountHeaders call.rawRequest = .ok headers) :
      Managed store before (.account call) (endSession before headers)
        (some (ok (lit "Successfully reset the password")))
  | logout (call : LogoutCall) (response : Option Response) :
      Managed store before (.logout call) (endSession before call.headers) response

/-- The route of `/logout` in the GET chain. -/
theorem handleGetRequests_logout (call : LogoutCall) (fe : Server) :
    handleGetRequests call.disk fe (lit "/logout") call.workingDir call.rawRequest call.headers =
      answer { fe with sessions := endSession fe.sessions call.headers }
        (webpage call.disk call.workingDir (lit "homepage")) := rfl

theorem managed (store : Store) (sessions : Sessions) (event : Event) :
    Managed store sessions event (handle store sessions event).2.1
      (handle store sessions event).2.2 := by
  cases event with
  | logout call =>
    unfold handle
    simp only [handleGetRequests_logout]
    exact .logout call _
  | account call =>
    have hother : ∀ text : Bytes, text ≠ lit "Successful login" →
        (some (ok text)).map Response.content ≠ some (lit "Successful login") :=
      fun text hne heq ↦ hne (Option.some.inj heq)
    unfold handle
    dsimp only
    rw [run_handlePostAccounts]
    cases hheaders : accountHeaders call.rawRequest with
    | error e => exact .kept call none (Option.some_ne_none _).symm
    | ok headers =>
      change Managed store sessions (.account call) (call.outcome headers sessions store).2.1
        (some (call.outcome headers sessions store).2.2)
      unfold AccountCall.outcome
      by_cases hlogin : call.url = lit "/login"
      · rw [if_pos hlogin]
        cases hstored : passwordOf store call.username with
        | none => exact .kept call _ (hother _ (by decide))
        | some present =>
          dsimp only [loginResult]
          by_cases hpassword : present = call.password
          · rw [if_pos hpassword]
            exact .login call hlogin (hpassword ▸ hstored)
          · rw [if_neg hpassword]
            exact .kept call _ (hother _ (by decide))
      rw [if_neg hlogin]
      by_cases hregister : call.url = lit "/register"
      · rw [if_pos hregister]
        exact .kept call _ (hother _ (by decide))
      rw [if_neg hregister]
      by_cases hreset : call.url = lit "/reset_password"
      · rw [if_pos hreset]
        by_cases hmatches : Matches (passwordOf store call.username) call.password
        · rw [if_pos hmatches]
          exact .reset call headers hreset hheaders
        · rw [if_neg hmatches]
          exact .kept call _ (hother _ (by decide))
      · rw [if_neg hreset]
        exact .kept call _ (hother _ (by decide))

/-! ## The session map -/

theorem lookup_createSession (sessions : Sessions) (sid username : Bytes) :
    (createSession sessions sid username).lookup sid =
      some ((∅ : StringMap).insert (lit "username") username) := AList.lookup_insert _

theorem lookup_createSession_of_ne (sessions : Sessions) {sid other : Bytes} (h : other ≠ sid)
    (username : Bytes) :
    (createSession sessions sid username).lookup other = sessions.lookup other :=
  AList.lookup_insert_ne h

/-- Only the session in the cookie can end. -/
theorem lookup_endSession (sessions : Sessions) (headers : StringMap) (sid : Bytes) :
    (endSession sessions headers).lookup sid =
      if sid = getCookieFromHeader headers then none else sessions.lookup sid := by
  unfold endSession sessionCheck deleteSession
  dsimp only
  by_cases hsid : sid = getCookieFromHeader headers
  · subst hsid
    rw [if_pos rfl]
    split
    · exact AList.lookup_erase _ _
    · next hlive => simpa using hlive
  · rw [if_neg hsid]
    split
    · exact AList.lookup_erase_ne hsid
    · rfl

/-- What is there afterwards was there before, and what is gone was in the cookie. -/
theorem of_lookup_endSession {sessions : Sessions} {headers : StringMap} {sid : Bytes}
    {data : StringMap} (h : (endSession sessions headers).lookup sid = some data) :
    sessions.lookup sid = some data := by
  rw [lookup_endSession] at h
  split at h
  · cases h
  · exact h

theorem getCookie_of_ended {sessions : Sessions} {headers : StringMap} {sid : Bytes}
    (hsome : (sessions.lookup sid).isSome)
    (hgone : (endSession sessions headers).lookup sid = none) :
    getCookieFromHeader headers = sid := by
  by_contra hne
  rw [lookup_endSession, if_neg (Ne.symm hne)] at hgone
  rw [hgone] at hsome
  exact absurd hsome Bool.false_ne_true

theorem Managed.lawful {x : Entry} (h : Managed x.store x.before x.event x.after x.response)
    (hfresh : ∀ call, x.event = .account call → call.url = lit "/login" →
      x.before.lookup call.drawn = none) : x.Lawful := by
  obtain ⟨event, store, before, after, response⟩ := x
  dsimp only at h hfresh
  cases h with
  | login call hurl hpassword =>
    have hnone := hfresh call rfl hurl
    have hlogs : Entry.LogsIn ⟨.account call, store, before,
        createSession before call.drawn call.username, some (loginResponse call.drawn)⟩ :=
      ⟨call, rfl, hurl, rfl⟩
    refine ⟨fun _ ↦ ⟨call.drawn, hnone, ?_, ?_⟩, fun hnot ↦ absurd hlogs hnot, ?_⟩
    · dsimp only
      rw [lookup_createSession]
      rfl
    · exact fun other hother ↦ lookup_createSession_of_ne before hother _
    · intro sid hsome hgone
      dsimp only at hsome hgone
      have hne : sid ≠ call.drawn := by
        rintro rfl
        rw [hnone] at hsome
        exact absurd hsome Bool.false_ne_true
      rw [lookup_createSession_of_ne before hne] at hgone
      rw [hgone] at hsome
      exact absurd hsome Bool.false_ne_true
  | kept call response hcontent =>
    refine ⟨?_, fun _ _ _ h ↦ h, ?_⟩
    · rintro ⟨call', -, -, hsuccess⟩
      exact absurd hsuccess hcontent
    · intro sid hsome hgone
      dsimp only at hsome hgone
      rw [hgone] at hsome
      exact absurd hsome Bool.false_ne_true
  | reset call headers hurl hheaders =>
    refine ⟨?_, ?_, ?_⟩
    · rintro ⟨call', hcall, hlogin, -⟩
      obtain rfl := Event.account.inj hcall
      exact absurd (hlogin.symm.trans hurl) (by decide)
    · exact fun _ _ _ hdata ↦ of_lookup_endSession hdata
    · intro sid hsome hgone
      exact .inr ⟨call, headers, rfl, hurl, rfl, hheaders, getCookie_of_ended hsome hgone⟩
  | logout call response =>
    refine ⟨?_, ?_, ?_⟩
    · rintro ⟨call', hcall, -⟩
      cases hcall
    · exact fun _ _ _ hdata ↦ of_lookup_endSession hdata
    · exact fun sid hsome hgone ↦ .inl ⟨call, rfl, getCookie_of_ended hsome hgone⟩

/-- A session that is there afterwards was there before or has been added. -/
theorem Managed.of_lookup {x : Entry} (h : Managed x.store x.before x.event x.after x.response)
    (hfresh : ∀ call, x.event = .account call → call.url = lit "/login" →
      x.before.lookup call.drawn = none) {sid : Bytes} {data : StringMap}
    (hdata : x.after.lookup sid = some data) :
    x.before.lookup sid = some data ∨ x.Adds sid data := by
  by_cases hlogs : x.LogsIn
  · obtain ⟨event, store, before, after, response⟩ := x
    dsimp only at h hfresh hdata
    cases h with
    | login call hurl hpassword =>
      by_cases hsid : sid = call.drawn
      · subst hsid
        refine .inr ⟨call, rfl, hurl, ?_, hpassword, hfresh call rfl hurl, hdata⟩
        rw [lookup_createSession] at hdata
        rw [← Option.some.inj hdata, StringMap.at, AList.lookup_insert]
        rfl
      · rw [lookup_createSession_of_ne before hsid] at hdata
        exact .inl hdata
    | kept call response hcontent =>
      exact .inl hdata
    | reset call headers hurl hheaders =>
      obtain ⟨call', hcall, hlogin, -⟩ := hlogs
      obtain rfl := Event.account.inj hcall
      exact absurd (hlogin.symm.trans hurl) (by decide)
    | logout call response =>
      obtain ⟨call', hcall, -⟩ := hlogs
      cases hcall
  · exact .inl ((h.lawful hfresh).others hlogs sid data hdata)

/-! ## Histories -/

/-- Where the sessions of a frontend come from, and what its history did to them. -/
structure Traced (s : Host) : Prop where
  added : ∀ sid data, s.sessions.lookup sid = some data → ∃ x ∈ s.past, x.Adds sid data
  lawful : ∀ x ∈ s.past, x.Lawful

theorem traced_step {s : Host} {event : Event} (h : Traced s) (hfresh : FreshIds s event) :
    Traced (s.step event) := by
  have hmanaged := managed s.store s.sessions event
  unfold Host.step
  constructor
  · intro sid data hdata
    rcases hmanaged.of_lookup (x := ⟨event, s.store, s.sessions, _, _⟩) hfresh hdata with
      hbefore | hadds
    · obtain ⟨x, hx, hadds⟩ := h.added sid data hbefore
      exact ⟨x, List.mem_append_left _ hx, hadds⟩
    · exact ⟨_, List.mem_append_right _ (List.mem_singleton_self _), hadds⟩
  · exact List.forall_mem_append.mpr ⟨h.lawful, List.forall_mem_singleton.mpr
      (hmanaged.lawful (x := ⟨event, s.store, s.sessions, _, _⟩) hfresh)⟩

theorem reaches_traced {s : Host} {store : Store}
    (h : Reaches machine FreshIds { store := store } s) : Traced s := by
  apply h.invariant
  · refine ⟨fun sid data hdata ↦ ?_, fun x hx ↦ absurd hx List.not_mem_nil⟩
    exact absurd (hdata.symm.trans (AList.lookup_empty sid)) (Option.some_ne_none _)
  · intro t event u ht hfresh hstep
    obtain rfl := Option.some.inj hstep
    exact traced_step ht hfresh

/-- A test that implies fresh identifiers. -/
def freshIdsTest (s : Host) : Event → Bool
  | .account call => (s.sessions.lookup call.drawn).isNone
  | .logout _ => true

theorem freshIds_of_test (s : Host) (event : Event) (h : freshIdsTest s event = true) :
    FreshIds s event := by
  rintro call rfl -
  exact Option.isNone_iff_eq_none.mp h

/-- A POST request with this body; an identifier is drawn for it in any case. -/
def postAccount (url body : String) (drawn : Bytes) : Event := .account {
  url := lit url
  rawRequest := lit "POST " ++ lit url ++ lit " HTTP/1.1\r\n\r\n" ++ lit body
  drawn := drawn }

/-- A registration, two logins of the user, two that fail, a reset and a logout. -/
def accountVisits : List Event := [
  postAccount "/register" "username=a&password=b" (lit "r"),
  postAccount "/login" "username=a&password=b" (lit "s"),
  postAccount "/login" "username=a&password=x" (lit "r"),
  postAccount "/login" "username=e&password=b" (lit "r"),
  postAccount "/login" "username=a&password=b" (lit "t"),
  postAccount "/reset_password" "username=a&password=b&new_password=c" (lit "r"),
  .logout {
    disk := fun _ ↦ none
    workingDir := []
    rawRequest := []
    headers := (∅ : StringMap).insert (lit "Cookie") (lit "session_id=t") }]

theorem reaches_traced_visits :
    ∃ s, Reaches machine FreshIds {} s ∧ s.past.length = 7 ∧ s.sessions.keys = [lit "s"] ∧
      Traced s := by
  have hrun : (run (machine.restrict freshIdsTest) {} accountVisits).map
      (fun s ↦ decide (s.past.length = 7 ∧ s.sessions.keys = [lit "s"])) = some true := by
    decide +kernel
  obtain ⟨s, hreach, hcheck⟩ := reaches_of_run_restrict freshIds_of_test hrun
  obtain ⟨hlength, hkeys⟩ := of_decide_eq_true hcheck
  exact ⟨s, hreach, hlength, hkeys, reaches_traced hreach⟩

end PennCloud.Frontend.LoginSessions
