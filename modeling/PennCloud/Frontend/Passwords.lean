import PennCloud.Frontend.Accounts

/-!
# Who changes a password

A password should be taken by a first registration and changed only by somebody who knows it. The
history of a frontend's account calls keeps to that exactly where no registration names a user who
has a password, and no reset with an empty password names one who has none.
-/

open PennCloud.Library.Programs PennCloud.Library.Runs PennCloud.KV.TabletCells
open PennCloud.Frontend.KVClient PennCloud.Frontend.HttpText PennCloud.Frontend.Accounts

namespace PennCloud.Frontend.Passwords

/-- One call of the handler; `drawn` is what a new session would be called. -/
structure AccountCall where
  url : Bytes
  rawRequest : Bytes
  drawn : Bytes := []

namespace AccountCall

def param (call : AccountCall) (key : Bytes) : Bytes := (accountParams call.rawRequest).at key

def username (call : AccountCall) : Bytes := call.param (lit "username")

def password (call : AccountCall) : Bytes := call.param (lit "password")

/-- The header loop gets to its end. -/
def Parses (call : AccountCall) : Prop := (accountHeaders call.rawRequest).isOk = true

end AccountCall

/-- A call in the history; without a response it ended in an exception. -/
structure Handled where
  call : AccountCall
  before : Store
  after : Store
  response : Option Response

structure Site where
  store : Store := fun _ ↦ none
  sessions : Sessions := ∅
  past : List Handled := []

def Site.step (s : Site) (call : AccountCall) : Option Site :=
  let outcome :=
    (handlePostAccounts call.drawn s.sessions call.rawRequest call.url).run (execute ()) s.store
  let handled (response : Option Response) : Handled :=
    { call := call, before := s.store, after := outcome.1, response := response }
  match outcome.2 with
  | .ok (sessions, response) =>
    some {
      store := outcome.1
      sessions := sessions
      past := s.past ++ [handled (some response)] }
  | .error _ => some { s with store := outcome.1, past := s.past ++ [handled none] }

def machine : Machine Site AccountCall where
  step := Site.step

def passwordOf (store : Store) (user : Bytes) : Option Bytes := store (user, lit "password")

/-- Nobody's account is taken over by this call. -/
structure Handled.Kept (x : Handled) : Prop where
  changes : ∀ user password, passwordOf x.before user = some password →
    passwordOf x.after user ≠ some password →
      x.call.url = lit "/reset_password" ∧ x.call.username = user ∧ x.call.password = password
  register : x.call.url = lit "/register" → (passwordOf x.before x.call.username).isSome →
    passwordOf x.after x.call.username = passwordOf x.before x.call.username ∧
      x.response.map Response.content ≠ some (lit "Successfully register")
  reset : x.call.url = lit "/reset_password" → passwordOf x.before x.call.username = none →
    x.after = x.before

/-- A registration names a new user, and a reset with an empty password one who is registered. -/
def Handled.Fresh (x : Handled) : Prop :=
  x.call.Parses →
    (x.call.url = lit "/register" → passwordOf x.before x.call.username = none) ∧
    (x.call.url = lit "/reset_password" → passwordOf x.before x.call.username = none →
      x.call.password ≠ [])

/-! ## What a call does -/

def setPassword (store : Store) (user password : Bytes) : Store :=
  Function.update store (user, lit "password") (some password)

theorem passwordOf_setPassword (store : Store) (user password : Bytes) :
    passwordOf (setPassword store user password) user = some password :=
  Function.update_self _ _ _

theorem passwordOf_setPassword_of_ne (store : Store) {user user' : Bytes} (h : user' ≠ user)
    (password : Bytes) :
    passwordOf (setPassword store user password) user' = passwordOf store user' :=
  Function.update_of_ne (fun heq ↦ h (Prod.mk.inj heq).1) _ _

theorem register_ne_login : lit "/register" ≠ lit "/login" := by decide

theorem reset_ne_login : lit "/reset_password" ≠ lit "/login" := by decide

theorem reset_ne_register : lit "/reset_password" ≠ lit "/register" := by decide

/-- The store and the response after a call. -/
inductive Handling (call : AccountCall) (store : Store) : Store → Option Response → Prop
  | thrown (hparses : ¬call.Parses) : Handling call store store none
  | looked (hregister : call.url ≠ lit "/register") (hreset : call.url ≠ lit "/reset_password")
      (response : Response) : Handling call store store (some response)
  | register (hparses : call.Parses) (hurl : call.url = lit "/register") :
      Handling call store (setPassword store call.username call.password)
        (some (ok (lit "Successfully register")))
  | reset (hparses : call.Parses) (hurl : call.url = lit "/reset_password")
      (hmatches : Matches (passwordOf store call.username) call.password) :
      Handling call store
        (setPassword store call.username (call.param (lit "new_password")))
        (some (ok (lit "Successfully reset the password")))
  | refused (hurl : call.url = lit "/reset_password")
      (hmatches : ¬Matches (passwordOf store call.username) call.password) :
      Handling call store store (some (ok (lit "Reset password failed\n")))

/-- What a login leads to, by the password that is stored. -/
def loginResult (drawn : Bytes) (sessions : Sessions) (username password : Bytes) :
    Option Bytes → Sessions × Response
  | some present =>
    if present = password then (createSession sessions drawn username, loginResponse drawn)
    else (sessions, ok (lit "Incorrect password"))
  | none => (sessions, ok (lit "User does not exist"))

theorem run_login (drawn : Bytes) (sessions : Sessions) (username password : Bytes) (store : Store) :
    (login drawn sessions username password).run (execute ()) store =
      (store, .ok (loginResult drawn sessions username password (passwordOf store username))) := by
  unfold login catchKVNotFound passwordOf
  rw [Prog.run_handle, Prog.run_bind]
  cases hcell : store (username, lit "password") with
  | none =>
    rw [run_get_of_none hcell]
    rfl
  | some present =>
    rw [run_get_of_some hcell]
    dsimp only [loginResult]
    by_cases hpassword : present = password
    · rw [if_pos hpassword, if_pos hpassword]
      rfl
    · rw [if_neg hpassword, if_neg hpassword]
      rfl

theorem run_register (sessions : Sessions) (username password : Bytes) (store : Store) :
    (register sessions username password).run (execute ()) store =
      (setPassword store username password, .ok (sessions, ok (lit "Successfully register"))) := rfl

/-- The sessions without the one that the cookie names. -/
def endSession (sessions : Sessions) (headers : StringMap) : Sessions :=
  let sid := getCookieFromHeader headers
  if sessionCheck sessions sid then deleteSession sessions sid else sessions

theorem run_resetPassword_of_matches (sessions : Sessions) (headers : StringMap)
    {username password : Bytes} (newPassword : Bytes) {store : Store}
    (h : Matches (passwordOf store username) password) :
    (resetPassword sessions headers username password newPassword).run (execute ()) store =
      (setPassword store username newPassword,
        .ok (endSession sessions headers, ok (lit "Successfully reset the password"))) := by
  unfold resetPassword catchKVError
  rw [Prog.run_handle, Prog.run_bind, run_cput_of_matches _ _ _ _ h]
  rfl

theorem run_resetPassword_of_not_matches (sessions : Sessions) (headers : StringMap)
    {username password : Bytes} (newPassword : Bytes) {store : Store}
    (h : ¬Matches (passwordOf store username) password) :
    (resetPassword sessions headers username password newPassword).run (execute ()) store =
      (store, .ok (sessions, ok (lit "Reset password failed\n"))) := by
  unfold resetPassword catchKVError
  rw [Prog.run_handle, Prog.run_bind, run_cput_of_not_matches _ _ _ _ h]
  dsimp only
  rw [if_pos (isKVError_mismatch _), Prog.run_ret]

/-- What a call with these headers does to the store and the sessions, and its response. -/
def AccountCall.outcome (call : AccountCall) (headers : StringMap) (sessions : Sessions)
    (store : Store) : Store × Sessions × Response :=
  if call.url = lit "/login" then
    (store, loginResult call.drawn sessions call.username call.password
      (passwordOf store call.username))
  else if call.url = lit "/register" then
    (setPassword store call.username call.password, sessions, ok (lit "Successfully register"))
  else if call.url = lit "/reset_password" then
    if Matches (passwordOf store call.username) call.password then
      (setPassword store call.username (call.param (lit "new_password")),
        endSession sessions headers, ok (lit "Successfully reset the password"))
    else
      (store, sessions, ok (lit "Reset password failed\n"))
  else
    (store, sessions, ok [])

theorem run_handlePostAccounts (call : AccountCall) (sessions : Sessions) (store : Store) :
    (handlePostAccounts call.drawn sessions call.rawRequest call.url).run (execute ()) store =
      match accountHeaders call.rawRequest with
      | .error e => (store, .error (.std e))
      | .ok headers =>
        ((call.outcome headers sessions store).1, .ok (call.outcome headers sessions store).2) := by
  unfold handlePostAccounts ofStd AccountCall.outcome AccountCall.username AccountCall.password
    AccountCall.param
  rw [Prog.run_bind]
  cases accountHeaders call.rawRequest with
  | error e => rfl
  | ok headers =>
    simp only [Except.mapError, Prog.ofExcept, Prog.run_ret]
    by_cases hlogin : call.url = lit "/login"
    · rw [if_pos hlogin, if_pos hlogin, run_login]
    rw [if_neg hlogin, if_neg hlogin]
    by_cases hregister : call.url = lit "/register"
    · rw [if_pos hregister, if_pos hregister, run_register]
    rw [if_neg hregister, if_neg hregister]
    by_cases hreset : call.url = lit "/reset_password"
    · rw [if_pos hreset, if_pos hreset]
      by_cases hmatches : Matches (passwordOf store
          ((accountParams call.rawRequest).at (lit "username")))
          ((accountParams call.rawRequest).at (lit "password"))
      · rw [if_pos hmatches, run_resetPassword_of_matches _ _ _ hmatches]
      · rw [if_neg hmatches, run_resetPassword_of_not_matches _ _ _ hmatches]
    · rw [if_neg hreset, if_neg hreset]
      rfl

theorem handling (call : AccountCall) (sessions : Sessions) (store : Store) :
    Handling call store
      ((handlePostAccounts call.drawn sessions call.rawRequest call.url).run (execute ()) store).1
      (((handlePostAccounts call.drawn sessions call.rawRequest call.url).run
        (execute ()) store).2.toOption.map Prod.snd) := by
  rw [run_handlePostAccounts]
  cases hheaders : accountHeaders call.rawRequest with
  | error e =>
    refine .thrown fun hparses ↦ ?_
    rw [AccountCall.Parses, hheaders] at hparses
    exact Bool.false_ne_true hparses
  | ok headers =>
    have hparses : call.Parses := by
      rw [AccountCall.Parses, hheaders]
      rfl
    change Handling call store (call.outcome headers sessions store).1
      (some (call.outcome headers sessions store).2.2)
    unfold AccountCall.outcome
    by_cases hlogin : call.url = lit "/login"
    · rw [if_pos hlogin]
      exact .looked (by rw [hlogin]; exact register_ne_login.symm)
        (by rw [hlogin]; exact reset_ne_login.symm) _
    rw [if_neg hlogin]
    by_cases hregister : call.url = lit "/register"
    · rw [if_pos hregister]
      exact .register hparses hregister
    rw [if_neg hregister]
    by_cases hreset : call.url = lit "/reset_password"
    · rw [if_pos hreset]
      by_cases hmatches : Matches (passwordOf store call.username) call.password
      · rw [if_pos hmatches]
        exact .reset hparses hreset hmatches
      · rw [if_neg hmatches]
        exact .refused hreset hmatches
    · rw [if_neg hreset]
      exact .looked hregister hreset _

/-! ## Histories -/

theorem kept_iff_fresh {x : Handled} (h : Handling x.call x.before x.after x.response) :
    x.Kept ↔ x.Fresh := by
  obtain ⟨call, before, after, response⟩ := x
  dsimp only at h
  cases h with
  | thrown hparses =>
    refine iff_of_true ⟨fun _ _ h hne ↦ absurd h hne, fun _ _ ↦ ⟨rfl, nofun⟩, fun _ _ ↦ rfl⟩ ?_
    exact fun h ↦ absurd h hparses
  | looked hregister hreset response =>
    refine iff_of_true ⟨fun _ _ h hne ↦ absurd h hne, fun h ↦ absurd h hregister,
      fun h ↦ absurd h hreset⟩ ?_
    exact fun _ ↦ ⟨fun h ↦ absurd h hregister, fun h ↦ absurd h hreset⟩
  | register hparses hurl =>
    have hnot : call.url ≠ lit "/reset_password" := by
      rw [hurl]
      exact reset_ne_register.symm
    constructor
    · intro hkept _
      refine ⟨fun _ ↦ ?_, fun h ↦ absurd h hnot⟩
      by_contra hsome
      exact (hkept.register hurl (Option.ne_none_iff_isSome.mp hsome)).2 rfl
    · intro hfresh
      have hnone := (hfresh hparses).1 hurl
      refine ⟨fun user password hbefore hafter ↦ ?_, fun _ hsome ↦ ?_, fun h ↦ absurd h hnot⟩
      · have hne : user ≠ call.username := by
          rintro rfl
          rw [hnone] at hbefore
          exact Option.some_ne_none _ hbefore.symm
        rw [passwordOf_setPassword_of_ne _ hne] at hafter
        exact absurd hbefore hafter
      · rw [hnone] at hsome
        exact absurd hsome Bool.false_ne_true
  | reset hparses hurl hmatches =>
    have hnot : call.url ≠ lit "/register" := by
      rw [hurl]
      exact reset_ne_register
    have hcreates : setPassword before call.username (call.param (lit "new_password")) = before →
        passwordOf before call.username ≠ none := by
      intro h
      rw [← h, passwordOf_setPassword]
      exact Option.some_ne_none _
    constructor
    · intro hkept _
      refine ⟨fun h ↦ absurd h hnot, fun _ hnone _ ↦ ?_⟩
      exact hcreates (hkept.reset hurl hnone) hnone
    · intro hfresh
      have hsome : passwordOf before call.username = some call.password := by
        rcases hmatches with h | ⟨hnone, hempty⟩
        · exact h
        · exact absurd hempty ((hfresh hparses).2 hurl hnone)
      refine ⟨fun user password hbefore hafter ↦ ?_, fun h ↦ absurd h hnot,
        fun _ hnone ↦ ?_⟩
      · by_cases huser : user = call.username
        · subst huser
          exact ⟨hurl, rfl, Option.some.inj (hsome.symm.trans hbefore)⟩
        · rw [passwordOf_setPassword_of_ne _ huser] at hafter
          exact absurd hbefore hafter
      · rw [hsome] at hnone
        exact absurd hnone (Option.some_ne_none _)
  | refused hurl hmatches =>
    have hnot : call.url ≠ lit "/register" := by
      rw [hurl]
      exact reset_ne_register
    refine iff_of_true ⟨fun _ _ h hne ↦ absurd h hne, fun h ↦ absurd h hnot,
      fun _ _ ↦ rfl⟩ ?_
    exact fun _ ↦ ⟨fun h ↦ absurd h hnot,
      fun _ hnone hempty ↦ hmatches (.inr ⟨hnone, hempty⟩)⟩

/-- Every entry of a history is what the handler did. -/
theorem reaches_handling {s : Site} {store : Store} {sessions : Sessions}
    {ok : Site → AccountCall → Prop}
    (h : Reaches machine ok { store := store, sessions := sessions } s) :
    ∀ x ∈ s.past, Handling x.call x.before x.after x.response := by
  apply h.invariant fun x hx ↦ absurd hx List.not_mem_nil
  intro t call u ht _ hstep
  have hhandling := handling call t.sessions t.store
  simp only [machine, Site.step] at hstep
  split at hstep
  · next outcome heq =>
    obtain rfl := Option.some.inj hstep
    rw [heq] at hhandling
    exact List.forall_mem_append.mpr ⟨ht, List.forall_mem_singleton.mpr hhandling⟩
  · next heq =>
    obtain rfl := Option.some.inj hstep
    rw [heq] at hhandling
    exact List.forall_mem_append.mpr ⟨ht, List.forall_mem_singleton.mpr hhandling⟩

/-- Passwords are safe in a history exactly where all its calls are fresh. -/
theorem passwords_kept_iff {s : Site} {store : Store} {sessions : Sessions}
    (h : Reaches machine anyStep { store := store, sessions := sessions } s) :
    (∀ x ∈ s.past, x.Kept) ↔ ∀ x ∈ s.past, x.Fresh := by
  have hhandling := reaches_handling h
  constructor
  · exact fun hkept x hx ↦ (kept_iff_fresh (hhandling x hx)).mp (hkept x hx)
  · exact fun hfresh x hx ↦ (kept_iff_fresh (hhandling x hx)).mpr (hfresh x hx)

/-- A request with this body. -/
def post (url body : Bytes) : AccountCall where
  url := url
  rawRequest := lit "POST " ++ url ++ lit " HTTP/1.1\r\n\r\n" ++ body

/-- A registration and a reset by the owner. -/
theorem passwords_kept_own_reset :
    ∃ s, Reaches machine anyStep {} s ∧ passwordOf s.store (lit "a") = some (lit "c") ∧
      ((∀ x ∈ s.past, x.Kept) ↔ ∀ x ∈ s.past, x.Fresh) := by
  have hrun : (run machine {}
      [post (lit "/register") (lit "username=a&password=b"),
        post (lit "/reset_password") (lit "username=a&password=b&new_password=c")]).map
      (fun s ↦ decide (passwordOf s.store (lit "a") = some (lit "c"))) = some true := by
    decide +kernel
  obtain ⟨s, hreach, hstored⟩ := reaches_of_run_check hrun
  exact ⟨s, hreach, of_decide_eq_true hstored, passwords_kept_iff hreach⟩

/-- Somebody else registers the same name, is told so, and owns the account. -/
theorem second_registration_takes_over :
    ∃ s, Reaches machine anyStep {} s ∧ passwordOf s.store (lit "a") = some (lit "c") ∧
      ¬∀ x ∈ s.past, x.Kept := by
  have hrun : (run machine {}
      [post (lit "/register") (lit "username=a&password=b"),
        post (lit "/register") (lit "username=a&password=c")]).map
      (fun s ↦ decide (passwordOf s.store (lit "a") = some (lit "c") ∧
        ∃ x ∈ s.past, x.call.url = lit "/register" ∧
          (passwordOf x.before x.call.username).isSome ∧
          x.response.map Response.content = some (lit "Successfully register"))) = some true := by
    decide +kernel
  obtain ⟨s, hreach, hcheck⟩ := reaches_of_run_check hrun
  obtain ⟨hstored, x, hx, hurl, hbefore, hresponse⟩ := of_decide_eq_true hcheck
  refine ⟨s, hreach, hstored, fun hkept ↦ ?_⟩
  exact ((hkept x hx).register hurl hbefore).2 hresponse

end PennCloud.Frontend.Passwords
