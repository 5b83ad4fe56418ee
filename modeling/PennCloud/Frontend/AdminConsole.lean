import PennCloud.Frontend.Routing

/-!
# The admin console and the state of a frontend

The admin console asks for the state of a frontend, shuts it down and restarts it, each time with a GET
request, and takes the status line `200 OK` for success. The frontend chooses its status lines in two
functions, one for either value of `serving`; the console is told the state as it is only by a
serving frontend that it does not shut down.
-/

open PennCloud.Library.TextSearch PennCloud.Library.Programs PennCloud.Library.Runs
open PennCloud.KV.TabletCells PennCloud.Frontend.KVClient PennCloud.Frontend.HttpText
open PennCloud.Frontend.Accounts PennCloud.Frontend.Routing

namespace PennCloud.Frontend.AdminConsole

/-! ## The console's side -/

/-- `check_server_status` with `/status`, `disable_frontend` and `restart_frontend`. -/
inductive AdminRequest
  | checkStatus
  | disableFrontend
  | restartFrontend
  deriving DecidableEq, Repr

def AdminRequest.endpoint : AdminRequest → Bytes
  | checkStatus => lit "/status"
  | disableFrontend => lit "/shutdown"
  | restartFrontend => lit "/restart"

def AdminRequest.text (request : AdminRequest) : Bytes :=
  lit "GET " ++ request.endpoint ++ lit " HTTP/1.1\r\n\r\n"

/-- The result of `check_server_status`, which receives at most 1024 bytes of the response. -/
def succeeds (response : Bytes) : Bool :=
  find? (lit "HTTP/1.1 200 OK") (response.take 1024) = some 0

/-! ## Both sides together -/

/-- The frontend's machine: its pages, its directory and the identifier drawn next. -/
structure Machinery where
  disk : Disk
  currentDir : Bytes
  drawn : Bytes
  store : Store

/-- What `handle_request` answers; `none` where it does not return. -/
def answered (m : Machinery) (fe : Server) (request : AdminRequest) : Option Answered :=
  match (handleRequest m.disk m.currentDir m.drawn fe request.text 0).run (execute ()) m.store with
  | (_, .ok (.done result)) => some result
  | _ => none

/-- A request, the frontend before it, and afterwards with the console's result. -/
structure Asked where
  request : AdminRequest
  before : Server
  outcome : Option (Server × Bool)

structure Console where
  fe : Server
  past : List Asked := []
  lost : Bool := false

def Console.step (c : Console) (event : AdminRequest × Machinery) : Option Console :=
  if c.lost then none
  else
    match answered event.2 c.fe event.1 with
    | some (fe, response) =>
      some { c with fe := fe, past := c.past ++ [⟨event.1, c.fe, some (fe, succeeds response.text)⟩] }
    | none => some { c with past := c.past ++ [⟨event.1, c.fe, none⟩], lost := true }

def machine : Machine Console (AdminRequest × Machinery) where
  step := Console.step

/-- What the result says about the frontend is true. -/
def Truthful (after : Server) (result : Bool) : AdminRequest → Prop
  | .checkStatus => result = true ↔ after.serving = true
  | .disableFrontend => result = true ↔ after.serving = false
  | .restartFrontend => result = true ↔ after.serving = true

def Asked.Agrees (x : Asked) : Prop :=
  ∃ after result, x.outcome = some (after, result) ∧ Truthful after result x.request

/-- The frontend serves and is not shut down. A restart then looks for a session without a name. -/
structure Asked.Safe (x : Asked) : Prop where
  serving : x.before.serving = true
  stays : x.request ≠ .disableFrontend
  nameless : x.request = .restartFrontend → sessionCheck x.before.sessions [] = false

/-! ## The frontend's side -/

theorem parseRequest_text (currentDir : Bytes) (request : AdminRequest) :
    parseRequest currentDir request.text =
      .ok {
        method := lit "GET"
        url := request.endpoint
        workingDir := currentDir
        headers := ∅ } := by
  cases request with
  | checkStatus => rfl
  | disableFrontend => rfl
  | restartFrontend => rfl

theorem answered_serving (m : Machinery) {fe : Server} (h : fe.serving = true)
    (request : AdminRequest) {fe' : Server} {response : Response}
    (hanswer : handleGetRequests m.disk fe request.endpoint m.currentDir request.text ∅ =
      answer fe' response) :
    answered m fe request = some (fe', response) := by
  unfold answered handleRequest
  rw [parseRequest_text]
  simp only [h, not_true_eq_false, if_false, if_true, hanswer]
  rfl

theorem answered_shut (m : Machinery) {fe : Server} (h : fe.serving = false)
    (request : AdminRequest) :
    answered m fe request =
      match request with
      | .checkStatus => some (fe, ok (lit "503 Service Unavailable\n"))
      | .disableFrontend => none
      | .restartFrontend => some ({ fe with serving := true },
          generateStandardResponse (lit "503 Service Unavailable")
            (lit "Successfully restart server")) := by
  unfold answered handleRequest
  rw [parseRequest_text]
  simp only [h, Bool.false_eq_true, not_false_eq_true, if_true]
  cases request with
  | checkStatus => rfl
  | disableFrontend => rfl
  | restartFrontend => rfl

theorem handleGetRequests_status (m : Machinery) (fe : Server) :
    handleGetRequests m.disk fe (lit "/status") m.currentDir AdminRequest.checkStatus.text ∅ =
      answer fe (ok (lit "OK STATUS\n")) := rfl

theorem handleGetRequests_shutdown (m : Machinery) (fe : Server) :
    handleGetRequests m.disk fe (lit "/shutdown") m.currentDir AdminRequest.disableFrontend.text ∅ =
      answer { fe with serving := false } unavailable := rfl

/-- No route of the GET chain takes `/restart`. -/
theorem handleGetRequests_restart (m : Machinery) (fe : Server) :
    handleGetRequests m.disk fe (lit "/restart") m.currentDir AdminRequest.restartFrontend.text ∅ =
      answer fe (if sessionCheck fe.sessions [] = false then unauthorized
        else generateStandardResponse (lit "404 Not Found") (lit "404 GET Not Found")) := by
  have hchain : handleGetRequests m.disk fe (lit "/restart") m.currentDir
      AdminRequest.restartFrontend.text ∅ =
        if ¬sessionCheck fe.sessions [] then answer fe unauthorized
        else answer fe (generateStandardResponse (lit "404 Not Found") (lit "404 GET Not Found")) := rfl
  rw [hchain]
  cases sessionCheck fe.sessions [] with
  | false => rfl
  | true => rfl

/-! ## Agreement -/

theorem succeeds_unavailable : succeeds unavailable.text = false := by decide +kernel

theorem succeeds_unauthorized : succeeds unauthorized.text = true := by decide +kernel

theorem succeeds_notFound : succeeds
    (generateStandardResponse (lit "404 Not Found") (lit "404 GET Not Found")).text = false := by
  decide +kernel

theorem succeeds_status : succeeds (ok (lit "OK STATUS\n")).text = true := by decide +kernel

/-- A frontend that is shut down says so under the status line `200 OK`. -/
theorem succeeds_status_shut : succeeds (ok (lit "503 Service Unavailable\n")).text = true := by
  decide +kernel

/-- A successful restart is reported under the status line of a failure. -/
theorem succeeds_restarted : succeeds (generateStandardResponse (lit "503 Service Unavailable")
    (lit "Successfully restart server")).text = false := by decide +kernel

/-- The entry that a request adds to the history. -/
def asked (m : Machinery) (fe : Server) (request : AdminRequest) : Asked where
  request := request
  before := fe
  outcome := (answered m fe request).map fun result ↦ (result.1, succeeds result.2.text)

theorem agrees_of_some {x : Asked} {after : Server} {result : Bool}
    (h : x.outcome = some (after, result)) : x.Agrees ↔ Truthful after result x.request := by
  constructor
  · rintro ⟨after', result', hsome, htrue⟩
    rw [h] at hsome
    cases hsome
    exact htrue
  · exact fun htrue ↦ ⟨after, result, h, htrue⟩

theorem not_agrees_of_none {x : Asked} (h : x.outcome = none) : ¬x.Agrees := by
  rintro ⟨after, result, hsome, -⟩
  rw [h] at hsome
  cases hsome

/-- Shut down, a frontend agrees with the console on no request. -/
theorem not_agrees_shut (m : Machinery) {fe : Server} (hshut : fe.serving = false)
    (request : AdminRequest) : ¬(asked m fe request).Agrees := by
  have houtcome := answered_shut m hshut request
  cases request with
  | checkStatus =>
    rw [agrees_of_some (congrArg (Option.map _) houtcome), succeeds_status_shut]
    simp [asked, Truthful, hshut]
  | disableFrontend => exact not_agrees_of_none (congrArg (Option.map _) houtcome)
  | restartFrontend =>
    rw [agrees_of_some (congrArg (Option.map _) houtcome), succeeds_restarted]
    simp [asked, Truthful]

theorem asked_agrees_iff (m : Machinery) (fe : Server) (request : AdminRequest) :
    (asked m fe request).Agrees ↔ (asked m fe request).Safe := by
  cases hserving : fe.serving with
  | false =>
    refine iff_of_false (not_agrees_shut m hserving request) fun hsafe ↦ ?_
    exact Bool.false_ne_true (hserving.symm.trans hsafe.serving)
  | true =>
    cases request with
    | checkStatus =>
      have houtcome := answered_serving m hserving .checkStatus (handleGetRequests_status m fe)
      rw [agrees_of_some (congrArg (Option.map _) houtcome), succeeds_status]
      exact iff_of_true (by simp [asked, Truthful, hserving])
        ⟨hserving, AdminRequest.noConfusion, AdminRequest.noConfusion⟩
    | disableFrontend =>
      have houtcome := answered_serving m hserving .disableFrontend (handleGetRequests_shutdown m fe)
      rw [agrees_of_some (congrArg (Option.map _) houtcome), succeeds_unavailable]
      exact iff_of_false (by simp [asked, Truthful]) fun hsafe ↦ hsafe.stays rfl
    | restartFrontend =>
      have houtcome := answered_serving m hserving .restartFrontend (handleGetRequests_restart m fe)
      rw [agrees_of_some (congrArg (Option.map _) houtcome)]
      cases hnameless : sessionCheck fe.sessions [] with
      | false =>
        rw [if_pos rfl, succeeds_unauthorized]
        exact iff_of_true (by simp [asked, Truthful, hserving])
          ⟨hserving, AdminRequest.noConfusion, fun _ ↦ hnameless⟩
      | true =>
        rw [if_neg (by decide), succeeds_notFound]
        refine iff_of_false (by simp [asked, Truthful, hserving]) fun hsafe ↦ ?_
        exact Bool.false_ne_true ((hsafe.nameless rfl).symm.trans hnameless)

/-! ## Whole runs -/

theorem step_eq_some {c next : Console} {event : AdminRequest × Machinery}
    (h : machine.step c event = some next) :
    next.past = c.past ++ [asked event.2 c.fe event.1] := by
  simp only [machine, Console.step] at h
  split at h
  · cases h
  · split at h
    · next fe response hanswered =>
      obtain rfl := Option.some.inj h
      simp only [asked, hanswered, Option.map_some]
    · next hanswered =>
      obtain rfl := Option.some.inj h
      simp only [asked, hanswered, Option.map_none]

/-- The console and the frontend agree on a whole sequence of requests exactly where every request
finds the frontend serving and none shuts it down. -/
theorem console_agrees_iff {fe : Server} {c : Console}
    (h : Reaches machine anyStep { fe := fe } c) :
    (∀ x ∈ c.past, x.Agrees) ↔ ∀ x ∈ c.past, x.Safe := by
  have hall : ∀ x ∈ c.past, (x.Agrees ↔ x.Safe) := by
    refine h.invariant (I := fun c ↦ ∀ x ∈ c.past, (x.Agrees ↔ x.Safe))
      (fun x hx ↦ absurd hx List.not_mem_nil) fun c event next hc _ hstep ↦ ?_
    rw [step_eq_some hstep]
    exact List.forall_mem_append.mpr
      ⟨hc, List.forall_mem_singleton.mpr (asked_agrees_iff event.2 c.fe event.1)⟩
  exact forall₂_congr hall

/-! ## A frontend that is shut down -/

def someMachinery : Machinery where
  disk := fun _ ↦ none
  currentDir := lit "/penncloud"
  drawn := []
  store := fun _ ↦ none

/-- Two checks of a serving frontend. -/
theorem console_agrees_serving :
    ∃ c, Reaches machine anyStep { fe := {} } c ∧ c.past.length = 2 ∧
      ((∀ x ∈ c.past, x.Agrees) ↔ ∀ x ∈ c.past, x.Safe) := by
  have hrun : (run machine { fe := {} }
      [(.checkStatus, someMachinery), (.restartFrontend, someMachinery)]).map
        (fun c ↦ decide (c.past.length = 2)) = some true := by decide +kernel
  obtain ⟨c, hreach, hlength⟩ := reaches_of_run_check hrun
  exact ⟨c, hreach, of_decide_eq_true hlength, console_agrees_iff hreach⟩

/-- The console takes a shutdown for a failure and then sees a running frontend. -/
theorem shutdown_unnoticed :
    ∃ c, Reaches machine anyStep { fe := {} } c ∧ c.fe.serving = false ∧
      ¬∀ x ∈ c.past, x.Agrees := by
  have hrun : (run machine { fe := {} }
      [(.disableFrontend, someMachinery), (.checkStatus, someMachinery)]).map
        (fun c ↦ !c.fe.serving && c.past.any fun x ↦
          decide (x.request = .checkStatus) && x.outcome.any fun outcome ↦
            outcome.2 && !outcome.1.serving) = some true := by decide +kernel
  obtain ⟨c, hreach, hcheck⟩ := reaches_of_run_check hrun
  simp only [Bool.and_eq_true, Bool.not_eq_true', List.any_eq_true, decide_eq_true_eq,
    Option.any_eq_true] at hcheck
  obtain ⟨hshut, x, hx, hstatus, ⟨after, result⟩, houtcome, hresult, hafter⟩ := hcheck
  refine ⟨c, hreach, hshut, fun hall ↦ ?_⟩
  have htrue := (agrees_of_some houtcome).mp (hall x hx)
  rw [hstatus] at htrue
  exact Bool.false_ne_true (hafter.symm.trans (htrue.mp hresult))

end PennCloud.Frontend.AdminConsole
